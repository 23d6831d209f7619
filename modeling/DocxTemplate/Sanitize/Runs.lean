import DocxTemplate.Sanitize.Token
import DocxTemplate.Sanitize.Rules

/-! # Runs

    A word processor splits a text over several runs that look alike. Two neighbouring
    runs are joined if their openings, from `<w:r` through `<w:t`, are the same bytes and
    nothing but the two end tags stands between their texts. The joined run keeps the
    opening and the attributes of the first text node.

    `runScan` stands just behind a `<w:r` and joins what follows until the next run
    differs; then it looks for the next `<w:r`. Its measure counts each byte ahead twice,
    since one run is first found and then left.
-/

namespace DocxTemplate.Sanitize

/-- The start of a run. -/
def runStart : Bytes := Bytes.ofString "<w:r"

/-- The end of a run, up to its name. -/
def runEnd : Bytes := Bytes.ofString "</w:r"

/-- The start of a text node. -/
def textStart : Bytes := Bytes.ofString "<w:t"

/-- The end of a text node, up to its name. -/
def textEnd : Bytes := Bytes.ofString "</w:t"

/-- A run whose text may be joined with what follows: everything from its `<w:r` through
    its `<w:t`, and how far ahead of the cursor that `<w:t` is. -/
structure OpenRun where
  opening : Bytes
  textAt : Nat
  deriving DecidableEq, Repr

/-- A sweep over runs: it either looks for the next run or stands in one. -/
structure RunSweep extends Sweep where
  current? : Option OpenRun := none
  deriving DecidableEq, Repr

/-- What stands between the texts of two runs that can be joined, up to the attributes of
    the second text node. -/
def OpenRun.joint (run : OpenRun) : Bytes :=
  textEnd ++ '>'.toUInt8 :: runEnd ++ '>'.toUInt8 :: run.opening

/-- Whether a byte behind `<w:t` begins its attributes or ends the tag. -/
def opensOrEnds (b : UInt8) : Bool :=
  b == 0x20 || b == '>'.toUInt8

namespace RunSweep

/-- Leaves the current run. -/
def leave (s : RunSweep) : RunSweep := { s with current? := none }

/-- Leaves the current run with a warning that depends on the position behind its `<w:r`. -/
def leaveWith (s : RunSweep) (warning : Nat → Warning) : RunSweep :=
  { s with toSweep := s.toSweep.warn (warning s.cursor.offset), current? := none }

/-- Looks for the next run. An empty run, and one with no text node in it or after it,
    is not entered. -/
def enter (s : RunSweep) : Step RunSweep RunSweep :=
  match tokenIndex? runStart s.cursor.ahead with
  | none => .done s
  | some i =>
    let there : RunSweep := { s with toSweep := s.advance (i + runStart.length) }
    let ahead := there.cursor.ahead
    if Bytes.opensWith "/>" ahead then .more there
    else
      match tokenIndex? textStart ahead with
      | none => .done there
      | some t =>
        .more { there with
          current? := some ⟨runStart ++ ahead.take (t + textStart.length), t⟩ }

/-- Tries to join the next run to the current one. -/
def join (s : RunSweep) (run : OpenRun) : Step RunSweep RunSweep :=
  let ahead := s.cursor.ahead
  let textWarning (here : Nat) : Warning := .unclosedText (here + run.textAt)
  match tokenIndex? runEnd ahead with
  | none => .more (s.leaveWith fun here => .unclosedRun (here - runStart.length))
  | some close =>
    -- The run ends before the text node that was found: it has none of its own.
    if close < run.textAt then .more s.leave
    else
      let inText := ahead.drop run.textAt
      match tokenIndex? textEnd inText with
      | none => .more (s.leaveWith textWarning)
      | some ending =>
        let cutAt := run.textAt + ending
        -- The end of the text node belongs to another run.
        if close < cutAt then .more s.leave
        else if (tokenIndex? runStart inText).any (· < ending) then .more (s.leaveWith textWarning)
        else
          -- Both end tags and the next opening have to follow without a gap.
          let tail := ahead.drop cutAt
          let next := tail.drop run.joint.length
          if run.joint.isPrefixOf tail && next.head?.any opensOrEnds then
            match Bytes.indexOf? ['>'.toUInt8] next with
            | none =>
              .more (s.leaveWith fun here =>
                .unclosedTag "<w:t" (here + cutAt + run.joint.length))
            | some g =>
              .more { s with
                cursor := ⟨s.cursor.behind, ahead.take cutAt ++ next.drop (g + 1)⟩
                count := s.count + 1 }
          else .more s.leave

/-- What is still to be done: each byte ahead counts twice, and standing in a run once. -/
def left (s : RunSweep) : Nat :=
  2 * s.cursor.ahead.length + if s.current?.isSome then 1 else 0

/-- Entering a run passes over its `<w:r`, which counts more than standing in it. -/
theorem left_enter_lt {s t : RunSweep} (hs : s.current? = none) (h : s.enter = .more t) :
    t.left < s.left := by
  have hlen : runStart.length = 4 := by decide +kernel
  unfold enter at h
  split at h
  · simp at h
  · next i hi =>
    have hi := tokenIndex?_add_length_lt hi
    dsimp only at h
    split at h
    · simp only [Step.more.injEq] at h
      subst h
      simp [left, hs]
      omega
    · split at h
      · simp at h
      · simp only [Step.more.injEq] at h
        subst h
        simp [left, hs]
        omega

/-- Joining takes text away, and a run that cannot be joined is left. -/
theorem left_join_lt {s t : RunSweep} {run : OpenRun} (hs : s.current? = some run)
    (h : s.join run = .more t) : t.left < s.left := by
  unfold join at h
  dsimp only at h
  split at h
  · simp only [Step.more.injEq] at h
    subst h
    simp [left, leaveWith, hs]
  · split at h
    · simp only [Step.more.injEq] at h
      subst h
      simp [left, leave, hs]
    · split at h
      · simp only [Step.more.injEq] at h
        subst h
        simp [left, leaveWith, hs]
      · next ending htext =>
        have htext := tokenIndex?_add_length_lt htext
        simp only [List.length_drop] at htext
        split at h
        · simp only [Step.more.injEq] at h
          subst h
          simp [left, leave, hs]
        · split at h
          · simp only [Step.more.injEq] at h
            subst h
            simp [left, leaveWith, hs]
          · split at h
            · split at h
              · simp only [Step.more.injEq] at h
                subst h
                simp [left, leaveWith, hs]
              · next g hg =>
                have hg := Bytes.indexOf?_singleton_lt hg
                simp only [List.length_drop] at hg
                simp only [Step.more.injEq] at h
                subst h
                simp [left, hs]
                omega
            · simp only [Step.more.injEq] at h
              subst h
              simp [left, leave, hs]

end RunSweep

/-- Joins runs from left to right. -/
def runScan : Scan RunSweep RunSweep where
  next := fun s =>
    match s.current? with
    | none => s.enter
    | some run => s.join run
  left := RunSweep.left
  left_lt := by
    intro s t h
    split at h
    · next hs => exact RunSweep.left_enter_lt hs h
    · next run hs => exact RunSweep.left_join_lt hs h

/-- Joins neighbouring runs whose openings are alike. `count` is the number of joins. -/
def joinRuns (text : Bytes) : Pass :=
  (runScan.run { toSweep := Sweep.ofText text }).toPass

end DocxTemplate.Sanitize
