import Pug.Grammar.Document
import Pug.Json.Options
import Pug.Json.Report
import Pug.Json.Tree
import Pug.Report.Collector
import Pug.Tree.Outline
import Pug.Proofs.Derivation.Basic
import Pug.Proofs.Derivation.Greedy
import Pug.Proofs.Derivation.Meaning
import Pug.Proofs.Reading.Basic
import Pug.Proofs.Reading.Attributes
import Pug.Proofs.Reading.Text
import Pug.Proofs.Reading.Block
import Pug.Proofs.Reading.Element
import Pug.Proofs.Reading.Control
import Pug.Proofs.Reading.Structure
import Pug.Proofs.Reading.Document
import Pug.Proofs.Reading.Failure
import Pug.Proofs.Acceptance
import Pug.Proofs.Derivation.Throughout
import Pug.Proofs.Headings.Basic
import Pug.Proofs.Content
import Pug.Proofs.Extension.Basic
import Pug.Proofs.Extension.Element
import Pug.Proofs.Extension.Production
import Pug.Proofs.Splicing
import Pug.Proofs.Stability
import Pug.Proofs.Derivation.Closing
import Pug.Proofs.Derivation.Separation
import Pug.Proofs.Composition
import Pug.Proofs.Complaint.Basic
import Pug.Proofs.Complaint.Attributes
import Pug.Proofs.Complaint.Text
import Pug.Proofs.Complaint.Element
import Pug.Proofs.Complaint.Control
import Pug.Proofs.Complaint.Structure
import Pug.Proofs.Complaint.Document
import Pug.Proofs.Completion
import Pug.Proofs.Accuracy
import Pug.Proofs.Nesting.Host
import Pug.Proofs.Nesting
import Pug.Proofs.Survey.Indents
import Pug.Proofs.Survey.Notices
import Pug.Proofs.Survey.Basic
import Pug.Proofs.Survey.Element
import Pug.Proofs.Survey.Control
import Pug.Proofs.Survey.Document
import Pug.Proofs.Termination
import Pug.Proofs.Warnings
import Pug.Proofs.Tree.Lineage
import Pug.Proofs.WellFormed
import Pug.Proofs.Placeholder.Refill
import Pug.Proofs.Placeholder.Kept
import Pug.Proofs.Placeholders
import Pug.Proofs.Tree.Relocation
import Pug.Proofs.Coupling.Cursor
import Pug.Proofs.Coupling.Basic
import Pug.Proofs.Coupling.Reader
import Pug.Proofs.Coupling.Element
import Pug.Proofs.Coupling.Production
import Pug.Proofs.Coupling.Template
import Pug.Proofs.Coupling.Change
import Pug.Proofs.Coupling.Ahead
import Pug.Proofs.EndOfStream
import Pug.Proofs.Positions
import Pug.Proofs.LineBreaks
import Pug.Proofs.Discarded
import Pug.Proofs.Encoding.Records
import Pug.Proofs.Encoding.Tree
import Pug.Proofs.Encoding
import Pug.Proofs.Standalone
import Pug.Proofs.Conditionals
import Pug.Proofs.Opener
import Pug.Proofs.Cases
import Pug.Proofs.Expansion
import Pug.Proofs.Coupling.Fork
import Pug.Proofs.Heads.Refusal
import Pug.Proofs.Heads
import Pug.Proofs.Derivation.Alike
import Pug.Proofs.Inline
import Pug.Proofs.TextRuns
import Pug.Proofs.Verbatim
import Pug.Proofs.HtmlRuns
import Pug.Proofs.Shorthand.Respelling
import Pug.Proofs.Shorthand.Tokens
import Pug.Proofs.Shorthands
import Pug.Token.Stacks
import Pug.Proofs.Endless
import Pug.Proofs.Messages
