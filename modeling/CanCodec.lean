import CanCodec.OrderedMap
import CanCodec.AscendingMap
import CanCodec.Text.Blank
import CanCodec.Text.Lines
import CanCodec.Text.Identifier
import CanCodec.Text.Numeral
import CanCodec.Text.Hexadecimal
import CanCodec.Decimal.Style
import CanCodec.Json.Reader
import CanCodec.Json.Writer
import CanCodec.Schema
import CanCodec.Frame.Plan
import CanCodec.Registry
import CanCodec.Catalog.Reader
import CanCodec.Artifact
import CanCodec.FileTree
import CanCodec.CommandLine.Arguments
import CanCodec.CommandLine.Run
import CanCodec.Main
import CanCodec.Proofs.Traversal
import CanCodec.Proofs.Frame.Numbering
import CanCodec.Proofs.Frame.Overlap
import CanCodec.Proofs.Payload
import CanCodec.Proofs.TwosComplement
import CanCodec.Proofs.Codec
import CanCodec.Proofs.Schema
import CanCodec.Proofs.Frame.Refusal
import CanCodec.Proofs.Record
import CanCodec.Proofs.Codebook
import CanCodec.Proofs.RoundTrip
import CanCodec.Proofs.Choices
import CanCodec.Proofs.C.Evaluation
import CanCodec.Proofs.C.Arithmetic
import CanCodec.Proofs.C.Transfer
import CanCodec.Proofs.C.Coding
import CanCodec.Proofs.Frame.Walk
import CanCodec.Proofs.Codebook.Partition
import CanCodec.Proofs.C.Control
import CanCodec.Proofs.Registry
import CanCodec.Proofs.C.Search
import CanCodec.Proofs.C.Dispatch
import CanCodec.Proofs.Double.Significand
import CanCodec.Proofs.Double.Packing
import CanCodec.Proofs.Double.Rounding
import CanCodec.Proofs.Double.Level
import CanCodec.Proofs.Double.Whole
import CanCodec.Proofs.Double.Special
import CanCodec.Proofs.C.Floating
import CanCodec.Proofs.C.Correction
import CanCodec.Proofs.C.Saturation
import CanCodec.Proofs.C.Conversion
import CanCodec.Proofs.Saturation
import CanCodec.Proofs.Split
import CanCodec.Proofs.FileTree
import CanCodec.Proofs.Identifier
import CanCodec.Proofs.Definition
import CanCodec.Proofs.C.Comments
import CanCodec.Proofs.Decimal.Style
import CanCodec.Proofs.C.FreeText
import CanCodec.Proofs.C.Names
import CanCodec.Proofs.C.Definitions
import CanCodec.Proofs.Refusal
import CanCodec.Proofs.Catalog.Reader
import CanCodec.Proofs.Catalog.Integers
import CanCodec.Proofs.Numeral
import CanCodec.Proofs.AscendingMap
import CanCodec.Proofs.Catalog.Format
import CanCodec.Proofs.Catalog.Pruning
import CanCodec.Proofs.Storage
import CanCodec.Proofs.C.Storage
import CanCodec.Proofs.Registry.History
import CanCodec.Proofs.Definition.Default
import CanCodec.Proofs.Definition.FreeText
import CanCodec.Proofs.Encoding
import CanCodec.Proofs.Frame.Capacity
import CanCodec.Proofs.Checked.Coding
import CanCodec.Proofs.Checked.Storage
import CanCodec.Proofs.Checked.Statements
import CanCodec.Proofs.Reading
import CanCodec.Proofs.Frame.Meeting
import CanCodec.Proofs.Frame.Mirror
import CanCodec.Proofs.Frame.Sawtooth
import CanCodec.Proofs.Storage.Fields
import CanCodec.Proofs.Storage.Arrangement
import CanCodec.Proofs.Storage.Room
import CanCodec.Proofs.Conversion.Rounding
import CanCodec.Proofs.Conversion.Nearest
import CanCodec.Proofs.Double.Rational
import CanCodec.Proofs.Conversion.Exact
import CanCodec.Proofs.Truncation
import CanCodec.Proofs.Schema.Acceptance
import CanCodec.Proofs.OrderedMap
import CanCodec.Proofs.Presentation
import CanCodec.Proofs.Double.Quotient
import CanCodec.Proofs.Double.Arithmetic
import CanCodec.Proofs.Double.Order
import CanCodec.Proofs.Conversion.Steps
import CanCodec.Proofs.Conversion.Candidates
import CanCodec.Proofs.Conversion.Overflow
import CanCodec.Proofs.Conversion.Monotone
import CanCodec.Proofs.Double.Bits
import CanCodec.Proofs.Double.Nearest
import CanCodec.Proofs.Decimal.Reading
import CanCodec.Proofs.Decimal.Digits
import CanCodec.Proofs.Decimal.Shortest
import CanCodec.Proofs.C.FloatingConstant
import CanCodec.Proofs.C.Literal
import CanCodec.Proofs.C.IntegerConstant
import CanCodec.Proofs.C.IntegerLiteral
