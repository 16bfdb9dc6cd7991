import Cognate.Text.Columns
import Cognate.Text.Blank
import Cognate.Target
import Cognate.Token.Stream
import Cognate.Number.Bytes
import Cognate.Number.Limbs
import Cognate.Number.ByteOrder
import Cognate.Number.FloatFormat
import Cognate.Number.Rounding
import Cognate.Text.Fixed
import Cognate.Text.Shortest
import Cognate.Number.Scalar
import Cognate.Raw.Basic
import Cognate.Raw.Codec
import Cognate.Number.LongDouble
import Cognate.Unit.Basic
import Cognate.Unit.Build
import Cognate.Unit.Measure
import Cognate.Unit.Record
import Cognate.Unit.Scope
import Cognate.Grammar.Cursor
import Cognate.Grammar.Arithmetic
import Cognate.Grammar.Literal
import Cognate.Grammar.Constant
import Cognate.Grammar.Attribute
import Cognate.Grammar.Declarator
import Cognate.Grammar.Declaration
import Cognate.Correspondence
import Cognate.Decoded.Basic
import Cognate.Diagnostic.Basic
import Cognate.Diagnostic.Render
import Cognate.Command.Arguments
import Cognate.Command.Basic
import Cognate.Text.HexBytes
import Cognate.Command.Run
import Cognate.Main
import Cognate.Proofs.Unit.Nodes
import Cognate.Proofs.Unit.Runs
import Cognate.Proofs.Unit.Table
import Cognate.Proofs.Unit.Sugar
import Cognate.Proofs.Correspondence.Matching
import Cognate.Proofs.Correspondence.Walk
import Cognate.Proofs.Correspondence.Equivalence
import Cognate.Proofs.Unit.Closed
import Cognate.Proofs.Correspondence.Stages
import Cognate.Proofs.Grammar.Declarators
import Cognate.Proofs.Grammar.Reads
import Cognate.Proofs.Grammar.Specifiers
import Cognate.Proofs.Grammar.Texts
import Cognate.Proofs.Spelling.Declarators
import Cognate.Proofs.Spelling.Described
import Cognate.Proofs.Readings.Concat
import Cognate.Proofs.Correspondence.Reflexivity
import Cognate.Proofs.Raw.Streams
import Cognate.Proofs.Unit.Layout
import Cognate.Proofs.Number.LongDouble
import Cognate.Proofs.Expression.Reading
import Cognate.Proofs.Token.Tiling
import Cognate.Proofs.Endings.Texts
import Cognate.Proofs.Grammar.Formed
import Cognate.Proofs.Unit.Refused
import Cognate.Proofs.Unit.Names
import Cognate.Proofs.Correspondence.Decoding
import Cognate.Proofs.Correspondence.Offsets
import Cognate.Proofs.Decoded.Sizes
import Cognate.Proofs.Decoded.Arrays
import Cognate.Proofs.Unit.Unbounded
import Cognate.Proofs.Decoded.Floats
import Cognate.Proofs.Grammar.Exact
import Cognate.Proofs.Readings.Enumerations
import Cognate.Proofs.Readings.Trees
import Cognate.Proofs.Readings.Derived
import Cognate.Proofs.Token.Peeks
import Cognate.Proofs.Raw.Padding
import Cognate.Proofs.Raw.Integers
import Cognate.Proofs.Forks.Parentheses
import Cognate.Proofs.Number.ByteOrder
import Cognate.Proofs.Unit.Redeclared
import Cognate.Proofs.Readings.Parameters
import Cognate.Proofs.Text.HexBytes
import Cognate.Proofs.Expression.Integers
import Cognate.Proofs.Expression.Conversions
import Cognate.Proofs.Number.WordSteps
import Cognate.Proofs.Raw.Printing
import Cognate.Proofs.Unit.Members
import Cognate.Proofs.Readings.Orders
import Cognate.Proofs.Number.WordProducts
import Cognate.Proofs.Number.Numerals
import Cognate.Proofs.Unit.Qualified
