import Mathlib.Data.List.Induction
import DocxTemplate.Proofs.Template.Occurrence

/-! # Rendering as one substitution

    Rendering replaces all occurrences of placeholders in a source at once and keeps all other
    text. The occurrences are those of `Occurs`, which says nothing of how they are searched for.

    * `Layout`: a source cut at its occurrences.
    * `Layout.ofSource`: the layout that the reader finds.
    * `Substitution.render_simultaneous`: what rendering makes of a source, and which names it
      asks for.
-/

namespace DocxTemplate

variable {source : Bytes} {p : Placeholder}

/-! ## Layouts -/

namespace Layout

/-- A list of gaps and of the placeholders behind them, put together with something in the place
    of each placeholder. -/
def fillParts (f : Placeholder → Bytes) (parts : List (Bytes × Placeholder)) (last : Bytes) : Bytes :=
  (parts.flatMap fun x => x.1 ++ f x.2) ++ last

/-- Where the placeholders of such a list stand, if it starts at position `n`. -/
def placesFrom : Nat → List (Bytes × Placeholder) → List (Nat × Placeholder)
  | _, [] => []
  | n, (gap, p) :: parts =>
    (n + gap.length, p) :: placesFrom (n + gap.length + p.raw.length) parts

end Layout

/-- A source cut at all of its occurrences. -/
structure Layout (source : Bytes) where
  /-- What stands in front of each occurrence, and the occurrence. -/
  parts : List (Bytes × Placeholder)
  /-- What stands behind the last one. -/
  last : Bytes
  /-- Put together they are the source. -/
  text : Layout.fillParts Placeholder.raw parts last = source
  /-- The occurrences are those of the source, and no other placeholder occurs in it. -/
  complete : ∀ i p, (i, p) ∈ Layout.placesFrom 0 parts ↔ Occurs source i p

namespace Layout

/-- The source with something in the place of every occurrence. -/
def fill (l : Layout source) (f : Placeholder → Bytes) : Bytes :=
  fillParts f l.parts l.last

/-- The gaps and placeholders of a list of pieces, and what stands behind them. -/
def ofPieces : List Piece → List (Bytes × Placeholder) × Bytes
  | [] => ([], [])
  | .literal b :: pieces =>
    match ofPieces pieces with
    | ([], last) => ([], b :: last)
    | ((gap, p) :: parts, last) => ((b :: gap, p) :: parts, last)
  | .slot p :: pieces => (([], p) :: (ofPieces pieces).1, (ofPieces pieces).2)

/-- Nothing of the pieces is lost. -/
theorem fillParts_ofPieces {g : Piece → Bytes} (hg : ∀ b, g (.literal b) = [b])
    (pieces : List Piece) :
    fillParts (fun p => g (.slot p)) (ofPieces pieces).1 (ofPieces pieces).2 = pieces.flatMap g := by
  fun_induction ofPieces pieces with
  | case1 => rfl
  | case2 b pieces last hparts ih =>
    rw [hparts] at ih
    rw [List.flatMap_cons, hg, ← ih]
    rfl
  | case3 b pieces gap p parts last hparts ih =>
    rw [hparts] at ih
    rw [List.flatMap_cons, hg, ← ih]
    rfl
  | case4 p pieces ih =>
    rw [List.flatMap_cons, ← ih, fillParts, fillParts, List.flatMap_cons, List.nil_append,
      List.append_assoc]

/-- The placeholders stand where they stand among the pieces. -/
theorem placesFrom_ofPieces (n : Nat) (pieces : List Piece) :
    placesFrom n (ofPieces pieces).1 = Piece.places n pieces := by
  fun_induction ofPieces pieces generalizing n with
  | case1 => rfl
  | case2 b pieces last hparts ih =>
    rw [hparts] at ih
    rw [Piece.places, ← ih]
    rfl
  | case3 b pieces gap p parts last hparts ih =>
    rw [hparts] at ih
    rw [Piece.places, ← ih, placesFrom, placesFrom, List.length_cons, Nat.add_assoc n 1,
      Nat.add_comm 1]
  | case4 p pieces ih =>
    rw [Piece.places, ← ih, placesFrom]
    rfl

/-- The layout that the reader finds from left to right. -/
def ofSource (source : Bytes) : Layout source where
  parts := (ofPieces (Piece.ofSource source)).1
  last := (ofPieces (Piece.ofSource source)).2
  text := (fillParts_ofPieces (fun _ => rfl) _).trans (Piece.flatMap_raw_ofSource source)
  complete i p := by
    rw [placesFrom_ofPieces, Piece.mem_places_iff]
    simp only [Nat.zero_add, exists_eq_left']

end Layout

/-! ## What takes the place of a placeholder -/

namespace Substitution

/-- The value of a placeholder, escaped or as it is; without one the placeholder or nothing. -/
def filling (s : Substitution) (data : Data) (p : Placeholder) : Bytes :=
  match data.get? p.name, s.escapeValues, s.keepUnknown with
  | some value, true, _ => Xml.escape (Bytes.ofString value)
  | some value, false, _ => Bytes.ofString value
  | none, _, true => p.raw
  | none, _, false => []

theorem replacement_slot (s : Substitution) (data : Data) (p : Placeholder) :
    s.replacement data (.slot p) = s.filling data p := by
  rw [replacement, filling]
  cases data.get? p.name with
  | none => cases s.keepUnknown <;> rfl
  | some value => cases s.escapeValues <;> rfl

/-- Rendering fills the layout of the source. -/
theorem render_eq_fill (s : Substitution) (data : Data) (source : Bytes) :
    s.render data source = (Layout.ofSource source).fill (s.filling data) := by
  have hfill := Layout.fillParts_ofPieces (g := s.replacement data) (fun _ => rfl)
    (Piece.ofSource source)
  simp only [replacement_slot] at hfill
  exact hfill.symm

end Substitution

/-! ## Names in order of first appearance -/

/-- The first occurrence of one name stands in front of all occurrences of another. -/
def FirstBefore (source : Bytes) (name other : String) : Prop :=
  ∃ i p, Occurs source i p ∧ p.name = name ∧
    ∀ j q, Occurs source j q → q.name = other → i < j

namespace Piece

theorem filterMap_name?_eq (n : Nat) (pieces : List Piece) :
    pieces.filterMap name? = (places n pieces).map fun x => x.2.name := by
  fun_induction places n pieces with
  | case1 => rfl
  | case2 n b pieces ih => exact ih
  | case3 n p pieces ih => 
    rw [List.map_cons, ← ih]
    rfl

/-- The places are listed from left to right. -/
theorem pairwise_places (n : Nat) (pieces : List Piece) :
    (∀ x ∈ places n pieces, n ≤ x.1) ∧ (places n pieces).Pairwise fun x y => x.1 < y.1 := by
  fun_induction places n pieces with
  | case1 => exact ⟨nofun, List.Pairwise.nil⟩
  | case2 n b pieces ih => exact ⟨fun x hx => Nat.le_of_succ_le (ih.1 x hx), ih.2⟩
  | case3 n p pieces ih =>
    have hlength := p.length_raw
    constructor
    · intro x hx
      rcases List.mem_cons.1 hx with rfl | hx
      · exact le_refl n
      · exact Nat.le_trans (Nat.le_add_right n _) (ih.1 x hx)
    · refine List.pairwise_cons.2 ⟨fun x hx => ?_, ih.2⟩
      have := ih.1 x hx
      show n < x.1
      omega

end Piece

/-- Without its repetitions a list of names stands in the order of first appearance. -/
theorem pairwise_eraseDups_of_places (places : List (Nat × Placeholder))
    (h : places.Pairwise fun x y => x.1 < y.1) :
    (places.map fun x => x.2.name).eraseDups.Pairwise fun name other =>
      ∃ x ∈ places, x.2.name = name ∧ ∀ y ∈ places, y.2.name = other → x.1 < y.1 := by
  -- The last place of a list adds its name at the end, unless the name is listed already.
  induction places using List.reverseRecOn with
  | nil => exact List.Pairwise.nil
  | append_singleton places z ih =>
    obtain ⟨hplaces, -, hlast⟩ := List.pairwise_append.1 h
    have hwithin := (ih hplaces).imp (S := fun name other => ∃ x ∈ places ++ [z],
        x.2.name = name ∧ ∀ y ∈ places ++ [z], y.2.name = other → x.1 < y.1) <| by
      rintro name other ⟨x, hx, hname, hother⟩
      refine ⟨x, List.mem_append_left _ hx, hname, fun y hy hyname => ?_⟩
      rcases List.mem_append.1 hy with hy | hy
      · exact hother y hy hyname
      · exact hlast x hx y hy
    rw [List.map_append, List.eraseDups_append, List.map_singleton, List.removeAll]
    by_cases hold : z.2.name ∈ places.map fun x => x.2.name
    · rw [List.filter_cons_of_neg (by simpa using hold), List.filter_nil, List.eraseDups_nil,
        List.append_nil]
      exact hwithin
    · rw [List.filter_cons_of_pos (by simpa using hold), List.filter_nil, List.eraseDups_cons,
        List.filter_nil, List.eraseDups_nil, List.pairwise_append]
      refine ⟨hwithin, List.pairwise_singleton _ _, fun name hname other hother => ?_⟩
      obtain ⟨x, hx, rfl⟩ := List.mem_map.1 (List.mem_eraseDups.1 hname)
      refine ⟨x, List.mem_append_left _ hx, rfl, fun y hy hyname => ?_⟩
      rw [List.mem_singleton] at hother
      rcases List.mem_append.1 hy with hy | hy
      · exact absurd (List.mem_map.2 ⟨y, hy, hyname.trans hother⟩) hold
      · exact hlast x hx y hy

/-- The names of a source are listed in the order of their first occurrences. -/
theorem pairwise_firstBefore (source : Bytes) :
    (placeholderNames source).Pairwise (FirstBefore source) := by
  have hmem : ∀ x : Nat × Placeholder, x ∈ Piece.places 0 (Piece.ofSource source) ↔
      Occurs source x.1 x.2 := by
    intro x
    rw [← Prod.mk.eta (p := x), Piece.mem_places_iff]
    simp only [Nat.zero_add, exists_eq_left']
  rw [placeholderNames, Piece.filterMap_name?_eq 0]
  refine (pairwise_eraseDups_of_places _ (Piece.pairwise_places 0 _).2).imp ?_
  rintro name other ⟨x, hx, hname, hfirst⟩
  exact ⟨x.1, x.2, (hmem x).1 hx, hname, fun j q hq => hfirst (j, q) ((hmem (j, q)).2 hq)⟩

theorem FirstBefore.ne {name other : String} (h : FirstBefore source name other) :
    name ≠ other := by
  rintro rfl
  obtain ⟨i, p, hp, hname, hfirst⟩ := h
  exact absurd (hfirst i p hp hname) (Nat.lt_irrefl i)

theorem mem_placeholderNames_iff_occurs {name : String} :
    name ∈ placeholderNames source ↔ ∃ i p, Occurs source i p ∧ p.name = name := by
  rw [placeholderNames, Piece.filterMap_name?_eq 0, List.mem_eraseDups, List.mem_map]
  simp only [Prod.exists, Piece.mem_places_iff, Nat.zero_add, exists_eq_left']

namespace Substitution

/-- Without values for its names a source stays as it is, if unknown placeholders are kept. -/
theorem render_keepUnknown {s : Substitution} {data : Data} (hs : s.keepUnknown = true)
    (h : ∀ name ∈ placeholderNames source, data.get? name = none) :
    s.render data source = source := by
  have hempty : s.render data source = s.render {} source := s.render_congr h
  have hraw : s.filling {} = Placeholder.raw := by
    funext p
    rw [filling, hs]
    rfl
  rw [hempty, render_eq_fill, hraw, Layout.fill, (Layout.ofSource source).text]

/-- Rendering is one simultaneous substitution. No two occurrences overlap; each of them is
    replaced by its value, and all other text is kept. So nothing of the data counts but the values
    of the names, which are listed once each and in the order in which they first appear. -/
theorem render_simultaneous (source : Bytes) :
    (∀ i j p q, Occurs source i p → Occurs source j q → i < j → i + p.raw.length ≤ j) ∧
    (∀ i p q, Occurs source i p → Occurs source i q → p = q) ∧
    (∃ layout : Layout source, ∀ (s : Substitution) (data : Data),
      s.render data source = layout.fill (s.filling data)) ∧
    (∀ (s : Substitution) (data data' : Data),
      (∀ name ∈ placeholderNames source, data.get? name = data'.get? name) →
        s.render data source = s.render data' source) ∧
    (∀ (s : Substitution) (data : Data), s.keepUnknown = true →
      (∀ i p, Occurs source i p → data.get? p.name = none) → s.render data source = source) ∧
    (∀ name, name ∈ placeholderNames source ↔ ∃ i p, Occurs source i p ∧ p.name = name) ∧
    (placeholderNames source).Nodup ∧
    (placeholderNames source).Pairwise (FirstBefore source) := by
  refine ⟨fun i j p q hp hq => hp.disjoint hq, fun i p q hp hq => hp.unique hq,
    ⟨Layout.ofSource source, fun s data => s.render_eq_fill data source⟩,
    fun s data data' h => s.render_congr h, fun s data hs h => ?_,
    fun name => mem_placeholderNames_iff_occurs,
    (pairwise_firstBefore source).imp FirstBefore.ne, pairwise_firstBefore source⟩
  apply render_keepUnknown hs
  intro name hname
  obtain ⟨i, p, hp, rfl⟩ := mem_placeholderNames_iff_occurs.1 hname
  exact h i p hp

/-- Further braces around an occurrence are kept. -/
example : render {} ⟨[("a", "<")]⟩ (Bytes.ofString "\x7b\x7b\x7ba\x7d\x7d\x7d") =
    Bytes.ofString "\x7b&lt;\x7d" := by
  decide +kernel

end Substitution

end DocxTemplate
