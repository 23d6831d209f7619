import DocxTemplate.Sanitize.Markers
import DocxTemplate.Sanitize.Revisions
import DocxTemplate.Sanitize.Runs

/-! # Sanitizing

    All passes in a row: marker elements, revision attributes, empty properties, runs.
    Nothing outside the removed spans changes.
-/

namespace DocxTemplate.Sanitize

/-- What sanitizing made of a text. -/
structure Report where
  text : Bytes
  /-- How many marker elements were removed. -/
  markers : Nat
  /-- How many revision attributes were removed. -/
  attributes : Nat
  /-- How many empty property elements were removed. -/
  properties : Nat
  /-- How often two runs were joined. -/
  joins : Nat
  warnings : List Warning
  deriving DecidableEq, Repr

/-- Whether anything was removed. -/
def Report.changed (r : Report) : Bool :=
  r.markers + r.attributes + r.properties + r.joins > 0

/-- Properties emptied by the removal of markers alone. The attribute pass takes care of
    the others. -/
def propertiesAfterMarkers (tags attributes : Pass) : Pass :=
  if 0 < tags.count ∧ attributes.count = 0 then removeEmptyProperties attributes.text
  else { text := attributes.text }

/-- The run pass, if the rules ask for it. -/
def joinIfAsked (rules : Rules) (text : Bytes) : Pass :=
  if rules.mergeRuns then joinRuns text else { text }

end Sanitize

open Sanitize

/-- Cleans the text of a document. -/
def sanitize (rules : Rules) (text : Bytes) : Report :=
  let tags := removeMarkers rules.tags text
  let attributes := removeAttributes rules.attributes tags.text
  let properties := propertiesAfterMarkers tags attributes
  let runs := joinIfAsked rules properties.text
  { text := runs.text
    markers := tags.count
    attributes := attributes.count
    properties := attributes.collapsed + properties.collapsed
    joins := runs.count
    warnings := tags.warnings ++ attributes.warnings ++ runs.warnings }

end DocxTemplate
