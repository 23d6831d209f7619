import DocxTemplate.Proofs.Xml.WellFormed

/-! # The grammar of a document

    What the check of a text accepts, said without the stack of open elements:

    * `Content`, `Element` and `Document`: the grammar, over lists of events of any depth.
    * `foldlM_step_eq_ok_iff`: the nesting of events ends where it began exactly if they are
      content, and counts the elements that stand in no other.
    * `check_eq_ok_iff_document`: a text is well-formed if its events are a document. A text that
      can be read fails only for what its end shows: an open element, no root or several.
-/

namespace DocxTemplate.Xml

open Event (Open skipMark)

/-! ## Grammar -/

/-- Content is character data and elements in any order, `(Text | elem)*`. The number is that of
    its own elements; those inside them do not count. -/
inductive Content : Nat → List Event → Prop where
  | nil : Content 0 []
  | text {count : Nat} {rest : List Event} (data : String) (next : Content count rest) :
      Content count (.text data :: rest)
  /-- The next element is an empty tag. -/
  | empty {count : Nat} {rest : List Event} (name : String) (attributes : List (String × String))
      (next : Content count rest) : Content (count + 1) (.empty name attributes :: rest)
  /-- The next element has content of its own, and an end tag with its name. -/
  | element {count inside : Nat} {content rest : List Event} (name : String)
      (attributes : List (String × String)) (inner : Content inside content)
      (next : Content count rest) :
      Content (count + 1) (.start name attributes :: (content ++ .close name :: rest))

/-- `elem ::= Empty | Start(n) (Text | elem)* End(n)` -/
inductive Element : List Event → Prop where
  | empty (name : String) (attributes : List (String × String)) : Element [.empty name attributes]
  | tags {inside : Nat} {content : List Event} (name : String)
      (attributes : List (String × String)) (inner : Content inside content) :
      Element (.start name attributes :: (content ++ [.close name]))

/-- Character data only, `Text*`. -/
def Texts (events : List Event) : Prop := ∀ event ∈ events, ∃ data, event = .text data

/-- `doc ::= Text* elem Text*` -/
inductive Document : List Event → Prop where
  | around {before element behind : List Event} (textsBefore : Texts before)
      (root : Element element) (textsBehind : Texts behind) :
      Document (before ++ (element ++ behind))

/-- An element may stand before any content. -/
theorem Element.append {count : Nat} {element rest : List Event} (h : Element element)
    (next : Content count rest) : Content (count + 1) (element ++ rest) := by
  cases h with
  | empty name attributes => exact .empty name attributes next
  | tags name attributes inner =>
    rw [List.cons_append, List.append_assoc]
    exact .element name attributes inner next

theorem Texts.append {count : Nat} {texts rest : List Event} (h : Texts texts)
    (next : Content count rest) : Content count (texts ++ rest) := by
  induction texts with
  | nil => exact next
  | cons event texts ih =>
    rw [Texts, List.forall_mem_cons] at h
    obtain ⟨⟨data, rfl⟩, hrest⟩ := h
    exact .text data (ih hrest)

/-- Content without elements is character data. -/
theorem content_zero_iff {events : List Event} : Content 0 events ↔ Texts events := by
  constructor
  · intro h
    generalize hcount : 0 = count at h
    induction h with
    | nil => simp [Texts]
    | text data next ih => exact List.forall_mem_cons.2 ⟨⟨data, rfl⟩, ih hcount⟩
    | empty => exact absurd hcount (Nat.succ_ne_zero _).symm
    | element => exact absurd hcount (Nat.succ_ne_zero _).symm
  · intro h
    have hcontent := h.append .nil
    rwa [List.append_nil] at hcontent

/-- Character data may stand before a document, which is a document again. -/
theorem Document.text {events : List Event} (data : String) (h : Document events) :
    Document (.text data :: events) := by
  obtain ⟨textsBefore, root, textsBehind⟩ := h
  rw [← List.cons_append]
  exact .around (List.forall_mem_cons.2 ⟨⟨data, rfl⟩, textsBefore⟩) root textsBehind

theorem Element.document {element behind : List Event} (h : Element element)
    (textsBehind : Texts behind) : Document (element ++ behind) := by
  rw [← List.nil_append (element ++ behind)]
  exact .around (List.forall_mem_nil _) h textsBehind

/-- A document is content with one element. -/
theorem document_iff_content {events : List Event} : Document events ↔ Content 1 events := by
  constructor
  · rintro ⟨textsBefore, root, textsBehind⟩
    exact textsBefore.append (root.append (content_zero_iff.2 textsBehind))
  · intro h
    generalize hcount : 1 = count at h
    induction h with
    | nil => exact absurd hcount (Nat.succ_ne_zero 0)
    | text data next ih => exact (ih hcount).text data
    | empty name attributes next ih =>
      obtain rfl := Nat.succ.inj hcount
      exact (Element.empty name attributes).document (content_zero_iff.1 next)
    | element name attributes inner next ihInner ih =>
      obtain rfl := Nat.succ.inj hcount
      have hdocument := (Element.tags name attributes inner).document (content_zero_iff.1 next)
      rwa [List.cons_append, List.append_assoc] at hdocument

/-! ## Nesting of content -/

/-- Counts several elements that stand in no other. -/
def Nesting.enterAll (n : Nesting) (count : Nat) : Nesting :=
  { n with roots := if n.opened.isEmpty then n.roots + count else n.roots }

theorem Nesting.enterAll_of_opened (name : String) (opened : List String) (roots count : Nat) :
    Nesting.enterAll ⟨name :: opened, roots⟩ count = ⟨name :: opened, roots⟩ := rfl

theorem Nesting.enterAll_zero (n : Nesting) : n.enterAll 0 = n := by
  simp [enterAll]

theorem Nesting.enterAll_enter (n : Nesting) (count : Nat) :
    n.enter.enterAll count = n.enterAll (count + 1) := by
  obtain ⟨opened, roots⟩ := n
  cases opened with
  | nil => simp [enter, enterAll, Nat.add_assoc, Nat.add_comm 1]
  | cons last opened => rfl

/-- Content leaves the open elements as they were. -/
theorem Content.foldlM_step {count : Nat} {events : List Event} (h : Content count events)
    (n : Nesting) : events.foldlM Nesting.step n = .ok (n.enterAll count) := by
  induction h generalizing n with
  | nil => exact congrArg Except.ok n.enterAll_zero.symm
  | text data next ih => exact ih n
  | empty name attributes next ih =>
    rw [← n.enterAll_enter]
    exact ih n.enter
  | @element count inside content rest name attributes inner next ihInner ih =>
    -- The elements inside are not counted, since this one is open around them.
    have hinner := ihInner { n.enter with opened := name :: n.opened }
    rw [Nesting.enterAll_of_opened] at hinner
    have hclose : Nesting.step { n.enter with opened := name :: n.opened } (.close name) =
        .ok n.enter := if_pos rfl
    calc (Event.start name attributes :: (content ++ .close name :: rest)).foldlM Nesting.step n
      _ = (content ++ .close name :: rest).foldlM Nesting.step
            { n.enter with opened := name :: n.opened } := rfl
      _ = (Event.close name :: rest).foldlM Nesting.step
            { n.enter with opened := name :: n.opened } := by
        rw [List.foldlM_append, hinner]
        rfl
      _ = rest.foldlM Nesting.step n.enter := by
        rw [List.foldlM_cons, hclose]
        rfl
      _ = .ok (n.enterAll (count + 1)) := by rw [ih n.enter, n.enterAll_enter]

/-- What may follow inside open elements: content and an end tag for each of them in turn, and
    then the content in which the outermost of them stands. -/
inductive Closing : List String → Nat → List Event → Prop where
  | outermost {count : Nat} {rest : List Event} (content : Content count rest) :
      Closing [] count rest
  | close {others : List String} {count inside : Nat} {content rest : List Event} (name : String)
      (inner : Content inside content) (next : Closing others count rest) :
      Closing (name :: others) count (content ++ .close name :: rest)

/-- If all elements are closed at the end, each of the open ones is closed in its turn. -/
theorem closing_of_foldlM {events : List Event} {opened : List String} {roots last : Nat}
    (h : events.foldlM Nesting.step ⟨opened, roots⟩ = .ok ⟨[], last⟩) :
    ∃ count, last = roots + count ∧ Closing opened count events := by
  induction events generalizing opened roots with
  | nil =>
    cases h
    exact ⟨0, rfl, .outermost .nil⟩
  | cons event events ih =>
    cases event with
    | text data =>
      obtain ⟨count, hlast, hclosing⟩ := ih h
      refine ⟨count, hlast, ?_⟩
      cases hclosing with
      | outermost content => exact .outermost (.text data content)
      | close name inner next => exact .close name (.text data inner) next
    | empty name attributes =>
      obtain ⟨count, hlast, hclosing⟩ := ih h
      cases hclosing with
      | outermost content =>
        exact ⟨count + 1, hlast.trans (Nat.succ_add_eq_add_succ roots count),
          .outermost (.empty name attributes content)⟩
      | close name' inner next =>
        exact ⟨count, hlast, .close name' (.empty name attributes inner) next⟩
    | start name attributes =>
      obtain ⟨count, hlast, hclosing⟩ := ih h
      cases hclosing with
      | @close _ _ inside content rest _ inner next =>
        -- What follows the end tag belongs to the element around this one.
        cases next with
        | outermost outer =>
          exact ⟨count + 1, hlast.trans (Nat.succ_add_eq_add_succ roots count),
            .outermost (.element name attributes inner outer)⟩
        | @close others _ inside' outer rest name' inner' next =>
          refine ⟨count, hlast, ?_⟩
          have hclosing := Closing.close name' (.element name attributes inner inner') next
          rwa [List.cons_append, List.append_assoc, List.cons_append] at hclosing
    | close name =>
      cases opened with
      | nil => cases h
      | cons name' others =>
        by_cases hname : name' = name
        · subst hname
          have hstep : Nesting.step ⟨name' :: others, roots⟩ (.close name') =
              .ok ⟨others, roots⟩ := if_pos rfl
          rw [List.foldlM_cons, hstep] at h
          obtain ⟨count, hlast, hclosing⟩ := ih h
          exact ⟨count, hlast, .close name' .nil hclosing⟩
        · have hstep : Nesting.step ⟨name' :: others, roots⟩ (.close name) =
              .error (.mismatched name name') := if_neg hname
          rw [List.foldlM_cons, hstep] at h
          cases h

/-- All elements of a list of events are closed, and there are `count` outermost ones, exactly if
    the list is content with so many elements. -/
theorem foldlM_step_eq_ok_iff {events : List Event} {count : Nat} :
    events.foldlM Nesting.step {} = .ok ⟨[], count⟩ ↔ Content count events := by
  constructor
  · intro h
    obtain ⟨count', rfl, hclosing⟩ := closing_of_foldlM h
    cases hclosing with
    | outermost content => rwa [Nat.zero_add]
  · intro h
    rw [h.foldlM_step, Nesting.enterAll]
    exact congrArg (fun k => Except.ok (Nesting.mk [] k)) (Nat.zero_add count)

/-! ## Whole texts -/

/-- The events of a text never fail for an end tag: the reader has compared it with what is open. -/
theorem exists_nesting_of_events {source : Bytes} {es : List Event} (h : events source = .ok es) :
    ∃ n : Nesting, es.foldlM Nesting.step {} = .ok n ∧ check source = n.finish := by
  rw [events, readFrom_eq_readThrough] at h
  cases hr : readThrough [] (skipMark source) with
  | error fault =>
    rw [hr] at h
    cases h
  | ok r =>
    obtain ⟨es', last⟩ := r
    obtain ⟨roots, hfold, -, -⟩ := (reads_of_readThrough hr).nesting 0 (by simp [Rooted, names])
    rw [hr] at h
    cases h
    refine ⟨⟨names last, roots⟩, hfold, ?_⟩
    change es'.foldlM Nesting.step {} = _ at hfold
    simp only [check, checkNesting, events, readFrom_eq_readThrough, hr, Functor.map, Except.map,
      Except.mapError, bind, Except.bind, hfold]

/-- A text is well-formed exactly if its events are a document. Of a text that can be read but is
    no document, an element is never closed, or there is no root, or there are several; no end tag
    is found to close another element than the last one, or none. -/
theorem check_eq_ok_iff_document (source : Bytes) :
    (check source = .ok () ↔ ∃ es, events source = .ok es ∧ Document es) ∧
    ∀ es, events source = .ok es → ¬ Document es →
      (∃ name, check source = .error (.neverClosed name)) ∨ check source = .error .noRoot ∨
        ∃ count, 2 ≤ count ∧ check source = .error (.severalRoots count) := by
  have hdocument : ∀ {es : List Event} {n : Nesting}, es.foldlM Nesting.step {} = .ok n →
      (n.finish = .ok () ↔ Document es) := by
    intro es n hfold
    rw [finish_eq_ok_iff, document_iff_content, ← foldlM_step_eq_ok_iff, hfold, Except.ok.injEq]
  constructor
  · constructor
    · intro h
      cases hread : events source with
      | error fault => simp [check, hread, Except.mapError, bind, Except.bind] at h
      | ok es =>
        obtain ⟨n, hfold, hcheck⟩ := exists_nesting_of_events hread
        exact ⟨es, rfl, (hdocument hfold).1 (hcheck ▸ h)⟩
    · rintro ⟨es, hread, hes⟩
      obtain ⟨n, hfold, hcheck⟩ := exists_nesting_of_events hread
      exact hcheck.trans ((hdocument hfold).2 hes)
  · intro es hread hes
    obtain ⟨n, hfold, hcheck⟩ := exists_nesting_of_events hread
    rw [← hdocument hfold] at hes
    rw [hcheck]
    obtain ⟨opened, roots⟩ := n
    match opened, roots with
    | last :: others, _ => exact Or.inl ⟨last, rfl⟩
    | [], 0 => exact Or.inr (Or.inl rfl)
    | [], 1 => exact absurd rfl hes
    | [], k + 2 => exact Or.inr (Or.inr ⟨k + 2, Nat.le_add_left 2 k, rfl⟩)

/-- A text with two outermost elements of one name, the first with an element inside. -/
def twoRoots : Bytes := Bytes.ofString "<é>x<b/></é>y<é/>"

/-- Such a text can be read and is no document. -/
theorem check_twoRoots :
    (∃ es, events twoRoots = .ok es ∧ ¬ Document es) ∧
    ((∃ name, check twoRoots = .error (.neverClosed name)) ∨ check twoRoots = .error .noRoot ∨
      ∃ count, 2 ≤ count ∧ check twoRoots = .error (.severalRoots count)) := by
  have hread : events twoRoots = .ok [.start "é" [], .text "x", .empty "b" [], .close "é",
      .text "y", .empty "é" []] := by decide +kernel
  have hno : ¬ Document [.start "é" [], .text "x", .empty "b" [], .close "é", .text "y",
      .empty "é" []] := by
    intro hdocument
    have hcheck := (check_eq_ok_iff_document twoRoots).1.2 ⟨_, hread, hdocument⟩
    revert hcheck
    decide +kernel
  exact ⟨⟨_, hread, hno⟩, (check_eq_ok_iff_document twoRoots).2 _ hread hno⟩

end DocxTemplate.Xml
