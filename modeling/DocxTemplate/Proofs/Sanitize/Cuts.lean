import Mathlib.Data.List.Basic
import DocxTemplate.Proofs.Sanitize.RunPass

/-! # The cuts of a run pass

    All that the run pass does to a text is to take spans out of it, one for each join.

    * `joinCuts`: the cuts in the order in which they are made, each in the text that the
      cuts before it have left.
    * `OfJoin`: the shape of such a cut.
    * `cutting_joinCuts`: the cuts lead from the text to the joined text.
-/

namespace DocxTemplate

namespace Scan

variable {σ ρ : Type}

/-- The states a scan goes through. -/
def trace (scan : Scan σ ρ) (s : σ) : List σ :=
  match _h : scan.next s with
  | .more t => s :: scan.trace t
  | .done _ => [s]
termination_by scan.left s
decreasing_by exact scan.left_lt _h

theorem trace_of_more {scan : Scan σ ρ} {s t : σ} (h : scan.next s = .more t) :
    scan.trace s = s :: scan.trace t := by
  rw [trace]
  split <;> simp_all

theorem trace_of_done {scan : Scan σ ρ} {s : σ} {r : ρ} (h : scan.next s = .done r) :
    scan.trace s = [s] := by
  rw [trace]
  split <;> simp_all

/-- What holds where the scan ends, and before a step if behind it, holds everywhere. -/
theorem backward_induction (scan : Scan σ ρ) {P : σ → Prop}
    (more : ∀ s t, scan.next s = .more t → P t → P s)
    (done : ∀ s r, scan.next s = .done r → P s) (s : σ) : P s := by
  cases h : scan.next s with
  | more t =>
    have := scan.left_lt h
    exact more s t h (backward_induction scan more done t)
  | done r => exact done s r h
termination_by scan.left s

end Scan

namespace Sanitize

/-! ## The cuts -/

/-- The cut that a step of the pass makes, if it makes one, in the whole text. -/
def RunSweep.cut? (s : RunSweep) : Option Cut :=
  s.current?.bind fun run => (run.cut? s.cursor.ahead).map (Cut.behind s.before)

/-- The cuts of the run pass, in the order in which they are made. -/
def joinCuts (text : Bytes) : List Cut :=
  (runScan.trace { toSweep := Sweep.ofText text }).filterMap RunSweep.cut?

/-- Cuts made one after the other lead from a text to another one. -/
inductive Cutting : Bytes → List Cut → Bytes → Prop where
  | nil {text} : Cutting text [] text
  | cons {c cuts last} (next : Cutting c.rest cuts last) : Cutting c.whole (c :: cuts) last

/-- The shape of the cuts that join runs: the end tags of a text node and of its run, the
    opening of that run once more, and the rest of the second text tag. -/
structure OfJoin (c : Cut) : Prop where
  removed : ∃ opening attributes, c.removed = textEnd ++ '>'.toUInt8 :: (runEnd ++ '>'.toUInt8 ::
    (opening ++ attributes ++ ['>'.toUInt8])) ∧ '>'.toUInt8 ∉ attributes ∧
    ∃ front data, c.before = front ++ opening ++ data ∧ runStart <+: opening ∧ textStart <:+ opening

/-- Before a cut made in a run stands the opening of the run, and behind that data. -/
theorem before_of_joinsAt {s : RunSweep} {run : OpenRun} {front : Bytes} {e : Nat}
    (hfront : s.before = front ++ runStart) (hopen : openRun? s.cursor.ahead = some run)
    (hjoin : JoinsAt s.cursor.ahead run.textAt e) :
    s.before ++ s.cursor.ahead.take e =
      front ++ run.opening ++ (s.cursor.ahead.take e).drop (run.textAt + 4) := by
  obtain ⟨-, -, hopening⟩ := openRun?_eq_some_iff.1 hopen
  have ht := hjoin.text_add_lt
  have hsplit := List.take_append_drop (run.textAt + 4) (s.cursor.ahead.take e)
  rw [List.take_take, Nat.min_eq_left (by omega)] at hsplit
  rw [hfront, hopening, length_textStart]
  simp only [List.append_assoc, hsplit]

/-- A cut of the pass has the shape of a join, and leaves the text that the step leaves. -/
theorem cut_of_step {s : RunSweep} {run : OpenRun} {c : Cut} (hs : Standing s)
    (inside : s.current? = some run) (made : run.cut? s.cursor.ahead = some c) :
    (c.behind s.before).whole = s.cursor.text ∧ OfJoin (c.behind s.before) := by
  obtain ⟨hopen, ⟨front, hfront⟩, -⟩ := hs.inside_run inside
  obtain ⟨e, hjoin, hbefore, hwhole, attributes, hremoved, hplain⟩ := joinsAt_of_cut? hopen made
  obtain ⟨-, -, hopening⟩ := openRun?_eq_some_iff.1 hopen
  refine ⟨by rw [Cut.whole_behind, hwhole, s.text_eq], run.opening, attributes, ?_, hplain, front,
    (s.cursor.ahead.take e).drop (run.textAt + 4), ?_, ?_, textStart_suffix_opening hopen⟩
  · change c.removed = _
    rw [hremoved]
    simp [OpenRun.joint]
  · rw [← before_of_joinsAt hfront hopen hjoin, ← hbefore]
    rfl
  · rw [hopening]
    exact List.prefix_append _ _

/-- From wherever the pass stands, the cuts still to come lead to its result. -/
theorem cutting_trace (s : RunSweep) (hs : Standing s) :
    Cutting s.cursor.text ((runScan.trace s).filterMap RunSweep.cut?) (runScan.run s).cursor.text ∧
      (runScan.run s).count = s.count + ((runScan.trace s).filterMap RunSweep.cut?).length ∧
      ∀ c ∈ (runScan.trace s).filterMap RunSweep.cut?, OfJoin c := by
  induction s using Scan.backward_induction runScan with
  | more s t hnext ih =>
    have hstep := runStep_of_next hnext
    have ih := ih (hs.step hstep)
    rw [Scan.trace_of_more hnext, Scan.run_of_more hnext]
    cases hstep with
    | @skip front ahead outside found first empty =>
      rw [List.filterMap_cons_none (by rw [RunSweep.cut?, outside]; rfl),
        ← s.text_behindRun none found]
      exact ih
    | @enter front ahead run outside found first opened =>
      rw [List.filterMap_cons_none (by rw [RunSweep.cut?, outside]; rfl),
        ← s.text_behindRun (some run) found]
      exact ih
    | @cut run c inside made =>
      obtain ⟨hwhole, hshape⟩ := cut_of_step hs inside made
      rw [List.filterMap_cons_some
        (show s.cut? = some (c.behind s.before) by rw [RunSweep.cut?, inside]; simp [made])]
      obtain ⟨hcutting, hcount, hall⟩ := ih
      refine ⟨?_, ?_, ?_⟩
      · rw [← hwhole]
        refine .cons ?_
        rw [Cut.rest_behind]
        exact hcutting
      · rw [hcount, List.length_cons, Nat.add_assoc, Nat.add_comm 1]
      · intro c' hc'
        rcases List.mem_cons.1 hc' with rfl | hc'
        · exact hshape
        · exact hall c' hc'
    | @leave run t inside none_made leaves =>
      rw [List.filterMap_cons_none (by rw [RunSweep.cut?, inside]; simp [none_made])]
      obtain ⟨ws, rfl⟩ := leaves
      exact ih
  | done s t hnext =>
    have hstop := runStop_of_next hnext
    rw [Scan.trace_of_done hnext, Scan.run_of_done hnext]
    cases hstop with
    | noRun outside none_found =>
      rw [List.filterMap_cons_none (by rw [RunSweep.cut?, outside]; rfl)]
      exact ⟨.nil, rfl, by simp⟩
    | noText outside found first none_found =>
      rw [List.filterMap_cons_none (by rw [RunSweep.cut?, outside]; rfl),
        s.text_behindRun none found]
      exact ⟨.nil, rfl, by simp⟩

/-- The cuts of the pass lead from the text to the joined text. There is one for each join. -/
theorem cutting_joinCuts (text : Bytes) :
    Cutting text (joinCuts text) (joinRuns text).text ∧
      (joinRuns text).count = (joinCuts text).length ∧ ∀ c ∈ joinCuts text, OfJoin c := by
  obtain ⟨hcutting, hcount, hall⟩ := cutting_trace _ (standing_start text)
  exact ⟨hcutting, hcount.trans (Nat.zero_add _), hall⟩

end Sanitize

end DocxTemplate
