import DocxTemplate.Archive.Checksum
import DocxTemplate.Archive.Entry
import DocxTemplate.Archive.Inflate
import DocxTemplate.Archive.Zip.Basic
import DocxTemplate.Archive.Zip.Ending
import DocxTemplate.Archive.Zip.Line
import DocxTemplate.Archive.Zip.Read
import DocxTemplate.Archive.Zip.Write
import DocxTemplate.CommandLine.Arguments
import DocxTemplate.CommandLine.Assignment
import DocxTemplate.CommandLine.Command
import DocxTemplate.CommandLine.Output
import DocxTemplate.Config.Basic
import DocxTemplate.Config.File
import DocxTemplate.Config.Search
import DocxTemplate.Decimal.Binary64
import DocxTemplate.Decimal.Shortest
import DocxTemplate.Disk.Basic
import DocxTemplate.Disk.Fault
import DocxTemplate.Disk.Path
import DocxTemplate.Error
import DocxTemplate.Images
import DocxTemplate.Json.Number
import DocxTemplate.Json.Reader
import DocxTemplate.Json.Value
import DocxTemplate.Main
import DocxTemplate.Package.Archive
import DocxTemplate.Package.ContentTypes
import DocxTemplate.Package.Part
import DocxTemplate.Package.Relationships
import DocxTemplate.Package.Table
import DocxTemplate.Proofs.Characters
import DocxTemplate.Proofs.Disk.Below
import DocxTemplate.Proofs.Disk.Change
import DocxTemplate.Proofs.Disk.Making
import DocxTemplate.Proofs.Disk.Order
import DocxTemplate.Proofs.Disk.Tree
import DocxTemplate.Proofs.Disk.Walk
import DocxTemplate.Proofs.Embedding.Again
import DocxTemplate.Proofs.Embedding.Failure
import DocxTemplate.Proofs.Embedding.Package
import DocxTemplate.Proofs.Embedding.Steps
import DocxTemplate.Proofs.Package.Agreement
import DocxTemplate.Proofs.Package.Check
import DocxTemplate.Proofs.Package.Entries
import DocxTemplate.Proofs.Package.Extract
import DocxTemplate.Proofs.Package.Pack
import DocxTemplate.Proofs.Package.Packed
import DocxTemplate.Proofs.Package.Restore
import DocxTemplate.Proofs.Package.RoundTrip
import DocxTemplate.Proofs.Package.Table
import DocxTemplate.Proofs.Package.Unpack
import DocxTemplate.Proofs.Sanitize.AttributePass
import DocxTemplate.Proofs.Sanitize.AttributeRemoval
import DocxTemplate.Proofs.Sanitize.CharacterData
import DocxTemplate.Proofs.Sanitize.Content
import DocxTemplate.Proofs.Sanitize.Cuts
import DocxTemplate.Proofs.Sanitize.Deletions
import DocxTemplate.Proofs.Sanitize.EmptyProperties
import DocxTemplate.Proofs.Sanitize.Grouping
import DocxTemplate.Proofs.Sanitize.Idempotence
import DocxTemplate.Proofs.Sanitize.Joining
import DocxTemplate.Proofs.Sanitize.Lexemes
import DocxTemplate.Proofs.Sanitize.MarkerPass
import DocxTemplate.Proofs.Sanitize.MarkerRemoval
import DocxTemplate.Proofs.Sanitize.Noise
import DocxTemplate.Proofs.Sanitize.NoisyRun
import DocxTemplate.Proofs.Sanitize.Positions
import DocxTemplate.Proofs.Sanitize.PropertyPass
import DocxTemplate.Proofs.Sanitize.Rounds
import DocxTemplate.Proofs.Sanitize.RunPass
import DocxTemplate.Proofs.Sanitize.RunPositions
import DocxTemplate.Proofs.Sanitize.Segments
import DocxTemplate.Proofs.Sanitize.Spelling
import DocxTemplate.Proofs.Sanitize.SplitText
import DocxTemplate.Proofs.Sanitize.Stretch
import DocxTemplate.Proofs.Sanitize.TextRuns
import DocxTemplate.Proofs.Sanitize.Token
import DocxTemplate.Proofs.Sanitize.TokenPlace
import DocxTemplate.Proofs.Sanitize.TokenSearch
import DocxTemplate.Proofs.Sanitize.Warnings
import DocxTemplate.Proofs.Sanitize.WellFormed
import DocxTemplate.Proofs.Session.Calls
import DocxTemplate.Proofs.Session.Confined
import DocxTemplate.Proofs.Session.Contract
import DocxTemplate.Proofs.Session.Housekeeping
import DocxTemplate.Proofs.Session.Inspection
import DocxTemplate.Proofs.Session.Retry
import DocxTemplate.Proofs.Session.Saving
import DocxTemplate.Proofs.Template.Markup
import DocxTemplate.Proofs.Template.Mending
import DocxTemplate.Proofs.Template.Occurrence
import DocxTemplate.Proofs.Template.Simultaneous
import DocxTemplate.Proofs.Text.Boundary
import DocxTemplate.Proofs.Text.Decoding
import DocxTemplate.Proofs.Text.Names
import DocxTemplate.Proofs.Text.Search
import DocxTemplate.Proofs.Text.Split
import DocxTemplate.Proofs.Text.Utf8
import DocxTemplate.Proofs.Workspace
import DocxTemplate.Proofs.World
import DocxTemplate.Proofs.Xml.Ampersand
import DocxTemplate.Proofs.Xml.Attribute
import DocxTemplate.Proofs.Xml.Element
import DocxTemplate.Proofs.Xml.Escape
import DocxTemplate.Proofs.Xml.Grammar
import DocxTemplate.Proofs.Xml.Markup
import DocxTemplate.Proofs.Xml.Portions
import DocxTemplate.Proofs.Xml.Reading
import DocxTemplate.Proofs.Xml.Reference
import DocxTemplate.Proofs.Xml.WellFormed
import DocxTemplate.Proofs.Xml.Writer
import DocxTemplate.Sanitize.Markers
import DocxTemplate.Sanitize.Properties
import DocxTemplate.Sanitize.Report
import DocxTemplate.Sanitize.Revisions
import DocxTemplate.Sanitize.Rules
import DocxTemplate.Sanitize.Runs
import DocxTemplate.Sanitize.Token
import DocxTemplate.Session.Basic
import DocxTemplate.Session.Options
import DocxTemplate.Template.DataFile
import DocxTemplate.Template.Placeholder
import DocxTemplate.Template.Substitution
import DocxTemplate.Text.Blank
import DocxTemplate.Text.Bytes
import DocxTemplate.Text.Case
import DocxTemplate.Text.CodePage
import DocxTemplate.Text.Name
import DocxTemplate.Text.Reader
import DocxTemplate.Text.Scan
import DocxTemplate.Text.Split
import DocxTemplate.Text.Utf8
import DocxTemplate.Toml.Moment
import DocxTemplate.Toml.Number
import DocxTemplate.Toml.Quoted
import DocxTemplate.Toml.Reader
import DocxTemplate.Toml.Table
import DocxTemplate.Workspace
import DocxTemplate.World
import DocxTemplate.Xml.Attribute
import DocxTemplate.Xml.Error
import DocxTemplate.Xml.Escape
import DocxTemplate.Xml.Event
import DocxTemplate.Xml.Markup
import DocxTemplate.Xml.Reference
import DocxTemplate.Xml.WellFormed
