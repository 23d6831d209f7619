import DocxTemplate.Text.Bytes

/-! # Scans

    A scan walks over a text in steps and ends with a result. Its measure `left`
    bounds what is left to do and falls with each step, so every scan ends:

    * `Scan.run` is the result, by recursion on the measure.
    * `Scan.steps` counts the steps that were taken.
    * `Scan.steps_le_left`: their number is at most the measure at the start.
    * `Scan.run_induction`: what every step keeps holds of the result.

    A `Cursor` is a place in a text that a scan works at. Deleting shortens the text
    ahead of it and never moves what is behind.
-/

namespace DocxTemplate

/-! ## Steps -/

/-- What a step of a scan leads to: a further state, or the end. -/
inductive Step (σ ρ : Type) where
  | more (state : σ)
  | done (result : ρ)

/-- A scan over states `σ` that ends with a result in `ρ`. -/
structure Scan (σ ρ : Type) where
  /-- One step. -/
  next : σ → Step σ ρ
  /-- A bound on the steps still to come. -/
  left : σ → Nat
  /-- Each step lowers the bound. -/
  left_lt : ∀ {s t}, next s = .more t → left t < left s

namespace Scan

variable {σ ρ : Type}

/-- The result of a scan. -/
def run (scan : Scan σ ρ) (s : σ) : ρ :=
  match _h : scan.next s with
  | .more t => scan.run t
  | .done r => r
termination_by scan.left s
decreasing_by exact scan.left_lt _h

/-- The number of steps a scan takes before the last one. -/
def steps (scan : Scan σ ρ) (s : σ) : Nat :=
  match _h : scan.next s with
  | .more t => scan.steps t + 1
  | .done _ => 0
termination_by scan.left s
decreasing_by exact scan.left_lt _h

/-- A step to another state does not change the result. -/
theorem run_of_more {scan : Scan σ ρ} {s t : σ} (h : scan.next s = .more t) :
    scan.run s = scan.run t := by
  rw [run]; split <;> simp_all

/-- A step to a result gives the result. -/
theorem run_of_done {scan : Scan σ ρ} {s : σ} {r : ρ} (h : scan.next s = .done r) :
    scan.run s = r := by
  rw [run]; split <;> simp_all

/-- A scan takes no more steps than its measure allows. -/
theorem steps_le_left (scan : Scan σ ρ) (s : σ) : scan.steps s ≤ scan.left s := by
  rw [steps]
  split
  · next t h =>
    have := scan.left_lt h
    have := steps_le_left scan t
    omega
  · exact Nat.zero_le _
termination_by scan.left s

/-- What holds at the start and is kept by each step leads to `Q` of the result, if
    the last step leads there. -/
theorem run_induction {scan : Scan σ ρ} {P : σ → Prop} {Q : ρ → Prop}
    (keep : ∀ s t, P s → scan.next s = .more t → P t)
    (last : ∀ s r, P s → scan.next s = .done r → Q r) (s : σ) (h : P s) :
    Q (scan.run s) := by
  rw [run]
  split
  · next t ht =>
    have := scan.left_lt ht
    exact run_induction keep last t (keep s t h ht)
  · next r hr => exact last s r h hr
termination_by scan.left s

end Scan

/-! ## Cursors -/

/-- A place in a text: what stands before it and what stands after it. -/
structure Cursor where
  /-- The bytes before the place, the nearest first. -/
  behind : Bytes
  ahead : Bytes
  deriving DecidableEq, Repr

namespace Cursor

/-- The place before a whole text. -/
def ofText (text : Bytes) : Cursor := ⟨[], text⟩

/-- The text a cursor stands in. -/
def text (c : Cursor) : Bytes := c.behind.reverse ++ c.ahead

/-- The position of a cursor in its text. -/
def offset (c : Cursor) : Nat := c.behind.length

/-- The place `n` bytes further on. -/
def advance (c : Cursor) (n : Nat) : Cursor :=
  ⟨(c.ahead.take n).reverse ++ c.behind, c.ahead.drop n⟩

/-- Deletes the next `n` bytes. -/
def delete (c : Cursor) (n : Nat) : Cursor :=
  ⟨c.behind, c.ahead.drop n⟩

/-- Deletes the white space just behind the cursor. -/
def deleteSpaceBehind (c : Cursor) : Cursor :=
  ⟨c.behind.dropWhile isSpace, c.ahead⟩

/-- Whether white space stands just behind the cursor. -/
def afterSpace (c : Cursor) : Bool :=
  c.behind.head?.any isSpace

/-! The text and the two sides of a cursor after each operation. Only deleting changes the
    text, and it takes from the side it is named for. -/

@[simp] theorem text_ofText (text : Bytes) : (ofText text).text = text := rfl

@[simp] theorem text_advance (c : Cursor) (n : Nat) : (c.advance n).text = c.text := by
  simp [text, advance]

@[simp] theorem ahead_advance (c : Cursor) (n : Nat) :
    (c.advance n).ahead = c.ahead.drop n := rfl

@[simp] theorem ahead_delete (c : Cursor) (n : Nat) :
    (c.delete n).ahead = c.ahead.drop n := rfl

@[simp] theorem behind_delete (c : Cursor) (n : Nat) : (c.delete n).behind = c.behind := rfl

@[simp] theorem ahead_deleteSpaceBehind (c : Cursor) :
    c.deleteSpaceBehind.ahead = c.ahead := rfl

end Cursor

end DocxTemplate
