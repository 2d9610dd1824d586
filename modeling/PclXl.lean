import PclXl.Bytes.Chunks
import PclXl.Bytes.Occurrence
import PclXl.Bytes.Order
import PclXl.CommandLine.Arguments
import PclXl.CommandLine.OptionsFile
import PclXl.CommandLine.Run
import PclXl.CommandLine.Sink
import PclXl.CommandLine.SystemError
import PclXl.Data.DataType
import PclXl.Data.Number
import PclXl.Data.Value
import PclXl.Listing.HexDump
import PclXl.Listing.Layout
import PclXl.Listing.Options
import PclXl.Listing.Reference
import PclXl.Numeric.Binary32
import PclXl.Numeric.HalfEven
import PclXl.Stream.AttributeList
import PclXl.Stream.Cursor
import PclXl.Stream.DataBlock
import PclXl.Stream.Diagnosis
import PclXl.Stream.Fault
import PclXl.Stream.Header
import PclXl.Stream.Operand
import PclXl.Stream.Reader
import PclXl.Stream.Session
import PclXl.Stream.Token
import PclXl.Stream.Transcript
import PclXl.Text.Blank
import PclXl.Text.Numeral
import PclXl.Text.Utf8
import PclXl.Vocabulary.Attributes
import PclXl.Vocabulary.Enumerations
import PclXl.Vocabulary.Operators
import PclXl.Main
import PclXl.Proofs.NumberBytes
import PclXl.Proofs.Scanning
import PclXl.Proofs.WrittenForm
import PclXl.Proofs.OperandReading
import PclXl.Proofs.AttributeReading
import PclXl.Proofs.OperatorReading
import PclXl.Proofs.Opening
import PclXl.Proofs.Runs
import PclXl.Proofs.RoundTrip
import PclXl.Proofs.ByteAccounting
import PclXl.Proofs.Twins
import PclXl.Proofs.InterruptedSteps
import PclXl.Proofs.JobEndPrecedence
import PclXl.Proofs.Locality
import PclXl.Proofs.Nesting
import PclXl.Proofs.Relocation
import PclXl.Proofs.Truncation
import PclXl.Proofs.PendingFields
import PclXl.Proofs.FaultPlaces
import PclXl.Proofs.FirstMarker
import PclXl.Proofs.StreamedListing
import PclXl.Proofs.FileByFile
import PclXl.Proofs.DeclaredLength
import PclXl.Proofs.Absorption
import PclXl.Proofs.Progress
import PclXl.Proofs.Utf8Encoding
import PclXl.Proofs.HeaderLines
import PclXl.Proofs.OrderDuality
import PclXl.Proofs.OperandBlocks
import PclXl.Proofs.Resumption
import PclXl.Proofs.NeededBytes
import PclXl.Proofs.DumpRows
import PclXl.Proofs.DumpedBytes
import PclXl.Proofs.ListingLines
import PclXl.Proofs.ArrayDumps
import PclXl.Proofs.DecimalNumerals
import PclXl.Proofs.RealNumbers
import PclXl.Proofs.LineCounts
import PclXl.Proofs.AttributeTexts
import PclXl.Proofs.OptionsFiles
import PclXl.Proofs.ArgumentOrder
import PclXl.Proofs.SinkDelivery
import PclXl.Proofs.CursorContract
