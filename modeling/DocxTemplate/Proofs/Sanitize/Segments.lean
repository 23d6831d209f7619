import Mathlib.Data.List.Chain
import DocxTemplate.Proofs.Sanitize.TextRuns

/-! # Runs as they are written

    A text put together from runs and from data between them, and what the searches of the
    run pass find in it:

    * `NodeRun`: a run with one text node, and whatever else stands before and behind it.
    * `Segment`: such a run, a run without text, or data in which no token stands.
    * `NodeRun.firstAt_textStart`, `firstAt_textEnd`, `firstAt_runEnd`: where the searches end
      that begin at a run.
    * `Segment.opening_of_prefix`: text that starts like a run with a text node is one.
-/

namespace DocxTemplate.Sanitize

/-! ## Text without tokens -/

/-- A token stands nowhere in a text. -/
def Free (token text : Bytes) : Prop := ∀ j, ¬ StartsToken token (text.drop j)

instance (token text : Bytes) : Decidable (Free token text) :=
  decidable_of_iff (∀ j < text.length, ¬ StartsToken token (text.drop j)) <| by
    refine ⟨fun h j hs => ?_, fun h j _ => h j⟩
    have hlt := hs.length_lt
    rw [List.length_drop] at hlt
    exact h j (by omega) hs

/-- What follows starts with a tag, if anything follows. -/
def Borders (rest : Bytes) : Prop := ∀ b ∈ rest.head?, b = '<'.toUInt8

section

variable {token x rest : Bytes}

/-- A token that begins before a tag ends before it. -/
theorem Free.clear (htoken : Tag token) (hx : Free token x) (hrest : Borders rest) :
    Clear (StartsToken token) x rest := by
  intro j hj hs
  obtain ⟨tail, rfl, htail⟩ := htoken
  rw [List.drop_append_of_le_length (Nat.le_of_lt hj)] at hs
  have hlen : 0 < (x.drop j).length := by
    rw [List.length_drop]
    omega
  by_cases hle : ('<'.toUInt8 :: tail).length + 1 ≤ (x.drop j).length
  · exact hx j ((ofFirstBytes_startsToken _ _ rest hle).1 hs)
  · -- The first byte of what follows belongs to the token or ends its name.
    obtain ⟨b, more, heq, hb⟩ := hs
    obtain ⟨k, hk⟩ : ∃ k, (x.drop j).length = k + 1 := ⟨(x.drop j).length - 1, by omega⟩
    have hrest' : rest = (tail ++ [b]).drop k ++ more := by
      have hdrop := congrArg (List.drop (k + 1)) heq
      rw [List.drop_left' hk, List.cons_append, List.drop_succ_cons] at hdrop
      rw [hdrop, show tail ++ b :: more = tail ++ [b] ++ more by simp,
        List.drop_append_of_le_length]
      rw [List.length_append, List.length_singleton]
      rw [List.length_cons] at hle
      omega
    have hk' : k < (tail ++ [b]).length := by
      rw [List.length_append, List.length_singleton]
      rw [List.length_cons] at hle
      omega
    have hmem : '<'.toUInt8 ∈ tail ++ [b] := by
      rw [hrest', List.drop_eq_getElem_cons hk'] at hrest
      exact hrest _ rfl ▸ List.getElem_mem hk'
    rw [List.mem_append, List.mem_singleton] at hmem
    rcases hmem with hmem | hmem
    · exact htail hmem
    · exact ne_of_endsName hb hmem.symm

theorem borders_tag (inner : Bytes) : Borders (tag inner ++ rest) := by
  intro b hb
  rw [tag, List.cons_append, List.head?_cons, Option.mem_some_iff] at hb
  exact hb.symm

theorem borders_token (htoken : Tag token) : Borders (token ++ rest) := by
  obtain ⟨tail, rfl, -⟩ := htoken
  intro b hb
  rw [List.cons_append, List.head?_cons, Option.mem_some_iff] at hb
  exact hb.symm

end

/-! ## Runs with one text node -/

/-- A run with one text node, as it is written. -/
structure NodeRun where
  /-- What stands between `<w:r` and `<w:t`. -/
  lead : Bytes
  /-- What stands in the start tag of the text node behind its name. -/
  attributes : Bytes
  text : Bytes
  /-- What stands between the text node and the end of the run. -/
  tail : Bytes
  opened : lead.head?.any opensOrEnds = true
  /-- From `<w:r` through `<w:t` no further token stands. -/
  single : ∀ token ∈ runTokens, Free token ((runStart ++ (lead ++ textStart)).drop 1)
  spaced : attributes = [] ∨ attributes.head? = some 0x20
  bare : '<'.toUInt8 ∉ attributes ∧ '>'.toUInt8 ∉ attributes
  unclosed : attributes.getLast? ≠ some '/'.toUInt8
  plain : '<'.toUInt8 ∉ text
  closed : ∀ token ∈ runTokens, Free token tail

namespace NodeRun

/-- How the run opens: everything from its `<w:r` through its `<w:t`. -/
def opening (r : NodeRun) : Bytes := runStart ++ (r.lead ++ textStart)

def written (r : NodeRun) : Bytes :=
  r.opening ++ (r.attributes ++ '>'.toUInt8 :: (r.text ++ (tag (Bytes.ofString "/w:t") ++
    (r.tail ++ tag (Bytes.ofString "/w:r")))))

/-- What stands behind the text of the run, with `more` behind the run. -/
def closing (r : NodeRun) (more : Bytes) : Bytes :=
  tag (Bytes.ofString "/w:t") ++ (r.tail ++ (tag (Bytes.ofString "/w:r") ++ more))

/-- The text node up to its end tag. -/
def node (r : NodeRun) : Bytes := textStart ++ (r.attributes ++ '>'.toUInt8 :: r.text)

/-- What stands behind the `<w:r`, with `more` behind the run. -/
def ahead (r : NodeRun) (more : Bytes) : Bytes := r.lead ++ (r.node ++ r.closing more)

/-- The run, open for the pass. -/
def openRun (r : NodeRun) : OpenRun := ⟨r.opening, r.lead.length⟩

variable (r : NodeRun) (more : Bytes)

theorem written_append : r.written ++ more = runStart ++ r.ahead more := by
  simp only [written, opening, ahead, node, closing, List.append_assoc, List.cons_append]

theorem ahead_append : r.ahead [] ++ more = r.ahead more := by
  simp only [ahead, closing, List.append_assoc, List.nil_append]

theorem written_eq : r.written = runStart ++ r.ahead [] := by
  rw [← written_append, List.append_nil]

variable {token : Bytes}

theorem free_lead (h : token ∈ runTokens) : Free token r.lead := by
  intro j ⟨b, rest, heq, hb⟩
  have hlen : j < r.lead.length := by
    have := congrArg List.length heq
    simp only [List.length_drop, List.length_append, List.length_cons] at this
    omega
  refine r.single token h (3 + j) ?_
  rw [List.drop_drop, ← Nat.add_assoc, ← List.drop_drop, List.drop_left' length_runStart,
    List.drop_append_of_le_length (Nat.le_of_lt hlen), heq]
  exact ⟨b, rest ++ textStart, by simp, hb⟩

/-- No token stands before the text node. -/
theorem clear_lead (h : token ∈ runTokens) : Clear (StartsToken token) r.lead (r.node ++ more) := by
  refine (r.free_lead h).clear (tag_runTokens h).1 ?_
  rw [node, List.append_assoc]
  exact borders_token tag_textStart

theorem exists_lead : ∃ b rest, r.lead = b :: rest ∧ opensOrEnds b = true := by
  have hopened := r.opened
  cases hlead : r.lead with
  | nil => simp [hlead] at hopened
  | cons b rest => exact ⟨b, rest, rfl, by simpa [hlead] using hopened⟩

theorem nameEnds_ahead : NameEnds (r.ahead more) := by
  obtain ⟨b, rest, hlead, hb⟩ := r.exists_lead
  exact ⟨b, by rw [ahead, hlead]; rfl, endsName_of_opensOrEnds hb⟩

/-- Behind its name the start tag of the text node goes on with a space, or ends. -/
theorem opensOrEnds_attributes :
    ∃ b rest, r.attributes ++ '>'.toUInt8 :: more = b :: rest ∧ opensOrEnds b = true := by
  rcases r.spaced with hnil | hspace
  · exact ⟨_, more, by rw [hnil, List.nil_append], by decide⟩
  · cases hattributes : r.attributes with
    | nil => simp [hattributes] at hspace
    | cons a attributes =>
      rw [hattributes, List.head?_cons, Option.some.injEq] at hspace
      exact ⟨a, _, rfl, by rw [hspace]; decide⟩

theorem startsToken_node : StartsToken textStart (r.node ++ more) := by
  rw [node, List.append_assoc, StartsToken.append_iff, List.append_assoc, List.cons_append]
  obtain ⟨b, rest, heq, hb⟩ := r.opensOrEnds_attributes (r.text ++ more)
  exact ⟨b, by rw [heq]; rfl, endsName_of_opensOrEnds hb⟩

/-- The text node begins no other token, and none stands in it. -/
theorem clear_node (h : token ∈ runTokens) (hne : token ≠ textStart) :
    Clear (StartsToken token) r.node more := by
  have hstart : ¬ StartsToken token (r.node ++ more) := by
    have hapart : ∀ token ∈ runTokens, token ≠ textStart →
        ¬ token <+: textStart ∧ ¬ textStart <+: token := by
      decide
    intro hs
    exact hs.not_both (r.startsToken_node more) (hapart token h hne)
  obtain ⟨⟨name, rfl, -⟩, -⟩ := tag_runTokens h
  have hdata : '<'.toUInt8 ∉ Bytes.ofString "w:t" ++ (r.attributes ++ '>'.toUInt8 :: r.text) := by
    simp only [List.mem_append, List.mem_cons, not_or]
    exact ⟨by decide, r.bare.1, by decide, r.plain⟩
  have hnode : r.node =
      '<'.toUInt8 :: (Bytes.ofString "w:t" ++ (r.attributes ++ '>'.toUInt8 :: r.text)) := rfl
  rw [hnode] at hstart ⊢
  exact clear_tag (atTags_startsToken name) hdata hstart

/-- A token that is not one of the two end tags stands nowhere behind the text. -/
theorem clear_closing (h : token ∈ runTokens) (hne : token = runStart ∨ token = textStart) :
    Clear (StartsToken token) (r.closing []) more := by
  have habsent : ∀ name ∈ ["/w:t", "/w:r"],
      Absent (StartsToken token) (tag (Bytes.ofString name)) := by
    have hends : ∀ name ∈ ["/w:t", "/w:r"], '<'.toUInt8 ∉ Bytes.ofString name ∧
        ∀ token, token = runStart ∨ token = textStart →
          ¬ StartsToken token (tag (Bytes.ofString name)) := by
      simp only [forall_eq_or_imp, forall_eq]
      decide
    intro name hname
    obtain ⟨hdata, hstart⟩ := hends name hname
    exact absent_token_tag (tag_runTokens h).1 (tag_runTokens h).2 hdata (hstart token hne)
  rw [closing, List.append_nil]
  refine (habsent "/w:t" (by simp) _).append (Clear.append ?_ (habsent "/w:r" (by simp) _))
  exact (r.closed token h).clear (tag_runTokens h).1 (borders_tag _)

/-! ### What the searches find -/

theorem firstAt_textStart : FirstAt (StartsToken textStart) (r.ahead more) r.lead.length :=
  (r.clear_lead _ (by decide)).firstAt (r.startsToken_node _)

theorem firstAt_textEnd : FirstAt (StartsToken textEnd) ((r.ahead more).drop r.lead.length)
    r.node.length := by
  rw [ahead, List.drop_left]
  refine (r.clear_node _ (by decide) (by decide)).firstAt ?_
  exact (startsToken_tag_iff (by decide)).2 (by decide)

/-- Up to the end of its text no run starts or ends. -/
theorem not_startsToken_ahead (h : token ∈ runTokens) (hne : token ≠ textStart) {j : Nat}
    (hj : j < r.lead.length + r.node.length) : ¬ StartsToken token ((r.ahead more).drop j) := by
  have hclear : Clear (StartsToken token) (r.lead ++ r.node) (r.closing more) :=
    (r.clear_lead _ h).append (r.clear_node _ h hne)
  have hnot := hclear j (by rwa [List.length_append])
  rwa [List.append_assoc] at hnot

theorem firstAt_runEnd : FirstAt (StartsToken runEnd) (r.ahead more)
    (r.lead ++ (r.node ++ (tag (Bytes.ofString "/w:t") ++ r.tail))).length := by
  have htag : Absent (StartsToken runEnd) (tag (Bytes.ofString "/w:t")) :=
    absent_token_tag tag_runEnd (by decide) (by decide) (by decide)
  have htail : Clear (StartsToken runEnd) r.tail (tag (Bytes.ofString "/w:r") ++ more) :=
    (r.closed runEnd (by decide)).clear tag_runEnd (borders_tag _)
  have hnode : Clear (StartsToken runEnd) r.node (tag (Bytes.ofString "/w:t") ++
      (r.tail ++ (tag (Bytes.ofString "/w:r") ++ more))) := r.clear_node _ (by decide) (by decide)
  have hlead : Clear (StartsToken runEnd) r.lead (r.node ++ r.closing more) :=
    r.clear_lead (r.closing more) (by decide)
  have hclear := Clear.append
    (by simpa only [closing, List.append_assoc] using hlead)
    (Clear.append (by simpa only [List.append_assoc] using hnode) ((htag _).append htail))
  have hfirst := hclear.firstAt ((startsToken_tag_iff (by decide)).2 (by decide))
  simpa only [ahead, closing, List.append_assoc] using hfirst

/-- No run starts behind the `<w:r` of the run before its end. -/
theorem clear_ahead : Clear (StartsToken runStart) (r.ahead []) more := by
  have hclosing : Clear (StartsToken runStart) (r.closing []) more :=
    r.clear_closing more (by decide) (Or.inl rfl)
  refine Clear.append ?_ (Clear.append ?_ hclosing)
  · rw [List.append_assoc]
    exact r.clear_lead _ (by decide)
  · exact r.clear_node _ (by decide) (by decide)

/-- The pass opens the run. -/
theorem openRun?_ahead : openRun? (r.ahead more) = some r.openRun := by
  refine openRun?_eq_some_iff.2 ⟨?_, r.firstAt_textStart more, ?_⟩
  · obtain ⟨b, lead, hlead, hb⟩ := r.exists_lead
    intro ⟨rest, heq⟩
    have hslash : '/'.toUInt8 = b := by
      rw [ahead, hlead] at heq
      exact (List.cons.inj heq).1
    rw [← hslash] at hb
    exact absurd hb (by decide)
  · rw [openRun, opening, ahead, node, List.take_add, List.take_left, List.drop_left]
    simp only [List.append_assoc, List.take_left]

end NodeRun

/-! ## Segments -/

/-- A run in which no text node starts, as it is written. -/
structure TextlessRun where
  /-- What stands between `<w:r` and the end tag. -/
  inner : Bytes
  opened : inner.head?.any opensOrEnds = true
  textless : Free textStart inner

/-- Data in which no token stands. -/
structure Data where
  bytes : Bytes
  nonempty : bytes ≠ []
  free : ∀ token ∈ runTokens, Free token bytes

/-- A piece of a text. -/
inductive Segment where
  /-- A run with a text node. -/
  | text (run : NodeRun)
  /-- A run without one. -/
  | textless (run : TextlessRun)
  /-- A run written as an empty tag. -/
  | empty
  /-- What stands between runs. -/
  | data (other : Data)

namespace Segment

def written : Segment → Bytes
  | text run => run.written
  | textless run => runStart ++ (run.inner ++ tag (Bytes.ofString "/w:r"))
  | empty => tag (Bytes.ofString "w:r/")
  | data other => other.bytes

def IsData : Segment → Prop
  | data _ => True
  | _ => False

instance : DecidablePred IsData
  | data _ => isTrue trivial
  | text _ | textless _ | empty => isFalse id

/-- No data stands next to other data. -/
def Apart (segments : List Segment) : Prop :=
  segments.IsChain fun left right => ¬ (left.IsData ∧ right.IsData)

instance : DecidablePred Apart := fun segments =>
  inferInstanceAs (Decidable (segments.IsChain fun left right => ¬ (left.IsData ∧ right.IsData)))

end Segment

/-- The text that segments are put together to. -/
def textOf (segments : List Segment) : Bytes := segments.flatMap Segment.written

@[simp] theorem textOf_nil : textOf [] = [] := rfl

@[simp] theorem textOf_cons (segment : Segment) (segments : List Segment) :
    textOf (segment :: segments) = segment.written ++ textOf segments := rfl

theorem TextlessRun.exists_inner (x : TextlessRun) :
    ∃ b rest, x.inner = b :: rest ∧ opensOrEnds b = true := by
  have hopened := x.opened
  cases hinner : x.inner with
  | nil => simp [hinner] at hopened
  | cons b rest => exact ⟨b, rest, rfl, by simpa [hinner] using hopened⟩

namespace Segment

variable {segments : List Segment}

theorem Apart.tail {segment : Segment} (h : Apart (segment :: segments)) : Apart segments :=
  (List.isChain_cons.1 h).2

/-- Behind data stands a run, if anything does. -/
theorem Apart.borders {other : Data} (h : Apart (data other :: segments)) :
    Borders (textOf segments) := by
  cases segments with
  | nil => exact fun b hb => by simp at hb
  | cons segment segments =>
    have hrun : ¬ segment.IsData := fun hdata => (List.isChain_cons_cons.1 h).1 ⟨trivial, hdata⟩
    rw [textOf_cons]
    cases segment with
    | text run =>
      rw [written, run.written_append]
      exact borders_token tag_runStart
    | textless run =>
      rw [written, List.append_assoc]
      exact borders_token tag_runStart
    | empty => exact borders_tag _
    | data other => exact absurd trivial hrun

/-- A token stands nowhere in data. -/
theorem Apart.clear {other : Data} (h : Apart (data other :: segments)) {token : Bytes}
    (htoken : token ∈ runTokens) : Clear (StartsToken token) other.bytes (textOf segments) :=
  (other.free token htoken).clear (tag_runTokens htoken).1 h.borders

/-- Segments that begin with the opening of a run begin with a run that opens alike. -/
theorem opening_of_prefix (h : Apart segments) (r : NodeRun) {b : UInt8} {rest : Bytes}
    (heq : textOf segments = r.opening ++ b :: rest) (hb : opensOrEnds b = true) :
    ∃ next others, segments = text next :: others ∧ next.opening = r.opening := by
  have hends : NameEnds (b :: rest) := ⟨b, rfl, endsName_of_opensOrEnds hb⟩
  obtain ⟨c, lead, hlead, hc⟩ := r.exists_lead
  have hclear : ∀ token ∈ runTokens,
      Clear (StartsToken token) r.lead (textStart ++ b :: rest) := fun token htoken =>
    (r.free_lead htoken).clear (tag_runTokens htoken).1 (borders_token tag_textStart)
  have hfirst : FirstAt (StartsToken textStart) (r.lead ++ (textStart ++ b :: rest))
      r.lead.length := (hclear _ (by decide)).firstAt (StartsToken.append_iff.2 hends)
  have hopening : r.opening ++ b :: rest = runStart ++ (r.lead ++ (textStart ++ b :: rest)) := by
    simp only [NodeRun.opening, List.append_assoc]
  rw [hopening] at heq
  cases segments with
  | nil => exact absurd heq (by simp [runStart])
  | cons segment segments =>
    rw [textOf_cons] at heq
    cases segment with
    | text next =>
      rw [written, next.written_append] at heq
      have hbehind := List.append_cancel_left heq
      rw [← hbehind] at hfirst
      have hlen : next.lead.length = r.lead.length := (next.firstAt_textStart _).unique hfirst
      refine ⟨next, segments, rfl, ?_⟩
      rw [NodeRun.opening, NodeRun.opening, (List.append_inj hbehind hlen).1]
    | textless x =>
      exfalso
      rw [written, List.append_assoc, List.append_assoc] at heq
      have hbehind := List.append_cancel_left heq
      have hend : StartsToken runEnd ((r.lead ++ (textStart ++ b :: rest)).drop x.inner.length) := by
        rw [← hbehind, List.drop_left]
        exact (startsToken_tag_iff (by decide)).2 (by decide)
      -- The run ends before its text node, or its text node starts before its end.
      rcases Nat.lt_trichotomy x.inner.length r.lead.length with hlt | heq' | hgt
      · exact hclear runEnd (by decide) _ hlt hend
      · rw [heq'] at hend
        exact hend.not_both hfirst.1 (by decide)
      · rw [← hbehind] at hfirst
        exact x.textless.clear tag_textStart (borders_tag _) _ hgt hfirst.1
    | empty =>
      have hempty : written empty ++ textOf segments =
          runStart ++ ('/'.toUInt8 :: '>'.toUInt8 :: textOf segments) := rfl
      rw [hempty, hlead] at heq
      have hslash : '/'.toUInt8 = c := (List.cons.inj (List.append_cancel_left heq)).1
      rw [← hslash] at hc
      exact absurd hc (by decide)
    | data other =>
      exfalso
      have hpos : 0 < other.bytes.length := List.length_pos_of_ne_nil other.nonempty
      have hclear : Clear (StartsToken runStart) other.bytes _ := h.clear (by decide)
      refine hclear 0 hpos ?_
      rw [List.drop_zero, show other.bytes = written (data other) from rfl, heq,
        StartsToken.append_iff, hlead]
      exact ⟨c, rfl, endsName_of_opensOrEnds hc⟩

end Segment

end DocxTemplate.Sanitize
