import ApiRecords.Text.Words
import ApiRecords.Text.Quoted
import ApiRecords.Text.Hex
import ApiRecords.Text.Printable
import ApiRecords.Text.Numeral
import ApiRecords.Text.Timestamp
import ApiRecords.Number.Shortest
import ApiRecords.Document.Json.Writer
import ApiRecords.Schema.Expansion
import ApiRecords.Schema.Findings
import ApiRecords.Model.Notice
import ApiRecords.Source.Override
import ApiRecords.Source.Index
import ApiRecords.Files.System
import ApiRecords.Emission.Emitter
import ApiRecords.CommandLine
import ApiRecords.Main
import ApiRecords.Proofs.FindingsReading
import ApiRecords.Proofs.Members
import ApiRecords.Proofs.Reachability
import ApiRecords.Proofs.BoundNames
import ApiRecords.Proofs.Files
import ApiRecords.Proofs.Words
import ApiRecords.Proofs.Emission.Actions
import ApiRecords.Proofs.Emission.Overrides
import ApiRecords.Proofs.Emission.Imports
import ApiRecords.Proofs.Containers
import ApiRecords.Proofs.Layout
import ApiRecords.Proofs.Reordering.Alike
import ApiRecords.Proofs.Reordering.Marks
import ApiRecords.Proofs.Reordering.Trees
import ApiRecords.Proofs.Expansion.Steps
import ApiRecords.Proofs.Expansion.Run
import ApiRecords.Proofs.Expansion.Unfolding
import ApiRecords.Proofs.Expansion.Recurrence
import ApiRecords.Proofs.Expansion.Nesting
import ApiRecords.Proofs.Expansion.Straight
import ApiRecords.Proofs.Expansion.Failure
import ApiRecords.Proofs.Expansion.Order
import ApiRecords.Proofs.Expansion.Residue
import ApiRecords.Proofs.Expansion.Chains
import ApiRecords.Proofs.Expansion.Faults
import ApiRecords.Proofs.Entities
import ApiRecords.Proofs.Unions.Resolution
import ApiRecords.Proofs.Unions.Targets
import ApiRecords.Proofs.Emission.BaseFiles
import ApiRecords.Proofs.Files.Ways
import ApiRecords.Proofs.Files.Writing
import ApiRecords.Proofs.Files.Contents
import ApiRecords.Proofs.Files.Specifiers
import ApiRecords.Proofs.Emission.Repetition
import ApiRecords.Proofs.Emission.Changes
import ApiRecords.Proofs.Emission.Aborts
import ApiRecords.Proofs.Discovery
import ApiRecords.Proofs.Emission.Parts
import ApiRecords.Proofs.Emission.Reports
import ApiRecords.Proofs.Locality
import ApiRecords.Proofs.Emission.Filling
import ApiRecords.Proofs.Reordering.Definitions
import ApiRecords.Proofs.Emission.Independence
import ApiRecords.Proofs.Types.Tokens
import ApiRecords.Proofs.Types.Grammar
import ApiRecords.Proofs.Types.Expressions
import ApiRecords.Proofs.Types.Relations
import ApiRecords.Proofs.Types.Literals
import ApiRecords.Proofs.Types.Arrays
import ApiRecords.Proofs.Numbers.Rounding
import ApiRecords.Proofs.Numbers.Shortest
import ApiRecords.Proofs.Numbers.Notation
import ApiRecords.Proofs.Mirrors
import ApiRecords.Proofs.Properties.Acyclic
import ApiRecords.Proofs.Properties.Numbering
import ApiRecords.Proofs.Properties.Required
import ApiRecords.Proofs.Properties.Determined
import ApiRecords.Proofs.Properties.Origins
import ApiRecords.Proofs.Properties.Constants
import ApiRecords.Proofs.Properties.ConstantNames
import ApiRecords.Proofs.Respelling
import ApiRecords.Proofs.Properties.Spelling
import ApiRecords.Proofs.Objects.Lexing
import ApiRecords.Proofs.Objects.Parsing
import ApiRecords.Proofs.Objects.Words
import ApiRecords.Proofs.Objects.Names
import ApiRecords.Proofs.Objects.Literals
import ApiRecords.Proofs.Objects.Reading
import ApiRecords.Proofs.Objects.Quotes
import ApiRecords.Proofs.Objects.ReadBack
import ApiRecords.Proofs.Objects.Blueprints
import ApiRecords.Proofs.Objects.Texts
import ApiRecords.Proofs.Json.Readable
import ApiRecords.Proofs.Json.Tokens
import ApiRecords.Proofs.Json.ReadBack
import ApiRecords.Proofs.Properties.Evaluation
import ApiRecords.Proofs.Properties.Defaults
import ApiRecords.Proofs.Objects.Verbatim
import ApiRecords.Proofs.Objects.Accessors
import ApiRecords.Proofs.Properties.Texts
import ApiRecords.Proofs.Pointers
import ApiRecords.Proofs.Extensions
import ApiRecords.Proofs.Levels
import ApiRecords.Proofs.Repeats
import ApiRecords.Proofs.Properties.Flags
import ApiRecords.Proofs.Properties.RequiredLists
import ApiRecords.Proofs.Words.Boundaries
import ApiRecords.Proofs.Words.NormalForm
import ApiRecords.Proofs.Settings
import ApiRecords.Proofs.Expansion.Circular
import ApiRecords.Proofs.Exports
