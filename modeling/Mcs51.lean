import Mcs51.Assembly
import Mcs51.CommandLine.Request
import Mcs51.CommandLine.Run
import Mcs51.Disk.Basic
import Mcs51.Disk.Path
import Mcs51.Disk.Refusal
import Mcs51.Instruction.Catalog
import Mcs51.Instruction.Encoding
import Mcs51.Instruction.Mnemonic
import Mcs51.Instruction.Operand
import Mcs51.Instruction.Slot
import Mcs51.Instruction.SpecialRegister
import Mcs51.Instruction.Target
import Mcs51.Journal
import Mcs51.Main
import Mcs51.Object.Entry
import Mcs51.Object.HexRecord
import Mcs51.Object.Link
import Mcs51.Object.Session
import Mcs51.Problem
import Mcs51.Proofs.Instruction.Choice
import Mcs51.Proofs.Instruction.Form
import Mcs51.Proofs.Instruction.Listing
import Mcs51.Proofs.Instruction.Reading
import Mcs51.Proofs.Object.Disassembly
import Mcs51.Proofs.Object.HexFile
import Mcs51.Proofs.Object.Layout
import Mcs51.Proofs.Object.LinkErrors
import Mcs51.Proofs.Object.Stream
import Mcs51.Proofs.Source.Expansion
import Mcs51.Proofs.Source.Inclusion
import Mcs51.Proofs.Source.LineNumbers
import Mcs51.Proofs.Source.Origin
import Mcs51.Proofs.Source.Passes
import Mcs51.Proofs.Source.Position
import Mcs51.Proofs.Source.ReadingOrder
import Mcs51.Proofs.Source.Region
import Mcs51.Proofs.Source.Replacement
import Mcs51.Proofs.Source.Settling
import Mcs51.Proofs.Source.Sign
import Mcs51.Proofs.Source.View
import Mcs51.Proofs.Text.Numeral
import Mcs51.Proofs.Text.Parts
import Mcs51.Proofs.Text.Words
import Mcs51.Settings.Basic
import Mcs51.Settings.Read
import Mcs51.Source.FileStack
import Mcs51.Source.Marker
import Mcs51.Source.Preprocessor
import Mcs51.Source.Region
import Mcs51.Source.Replacement
import Mcs51.Source.Splice
import Mcs51.Source.Statement
import Mcs51.Table
import Mcs51.Text.Basic
import Mcs51.Text.Blank
import Mcs51.Text.Numeral
import Mcs51.Text.Utf8
import Mcs51.Toml.Date
import Mcs51.Toml.Document
import Mcs51.Toml.Lexeme
import Mcs51.Toml.Number
import Mcs51.Toml.Value
import Mcs51.Walk
import Mcs51.Proofs.Object.Reassembly
import Mcs51.Proofs.Source.Nesting
import Mcs51.Proofs.Object.Brackets
import Mcs51.Proofs.Source.PlainSource
import Mcs51.Proofs.Object.Replay
import Mcs51.Proofs.Object.LabelAddress
import Mcs51.Proofs.Object.NumericTargets
import Mcs51.Proofs.Object.Relocation
import Mcs51.Proofs.Source.History
import Mcs51.Proofs.Source.Substitution
import Mcs51.Proofs.Source.Rounds
import Mcs51.Proofs.Source.Flattening
import Mcs51.Proofs.Source.LastRound
import Mcs51.Proofs.Source.FixedPoints
import Mcs51.Proofs.Source.WholeWords
import Mcs51.Proofs.Source.Predefinition
import Mcs51.Proofs.Object.Consistency
import Mcs51.Proofs.Assembly.Comments
import Mcs51.Proofs.CommandLine.Inputs
import Mcs51.Proofs.Source.Selection
import Mcs51.Proofs.Source.Runs
import Mcs51.Proofs.Source.Independence
import Mcs51.Proofs.Source.Completeness
import Mcs51.Proofs.Object.Branches
import Mcs51.Proofs.Object.Frame
import Mcs51.Proofs.Instruction.Length
import Mcs51.Proofs.Instruction.LetterCase
import Mcs51.Proofs.Source.Joining
import Mcs51.Proofs.Text.Literal
import Mcs51.Proofs.Text.Bytes
import Mcs51.Proofs.Source.Block
import Mcs51.Proofs.Source.ByteRanges
import Mcs51.Proofs.Assembly.Totality
