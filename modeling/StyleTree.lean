import StyleTree.Assembler
import StyleTree.Assembly
import StyleTree.Block
import StyleTree.Block.Parser
import StyleTree.Comment
import StyleTree.Css
import StyleTree.Enclosure
import StyleTree.Event
import StyleTree.Json
import StyleTree.Json.Numbers
import StyleTree.Json.Numeral
import StyleTree.Json.Parser
import StyleTree.Json.Printer
import StyleTree.Json.Strings
import StyleTree.Listing
import StyleTree.Proofs.Assembly.Depth
import StyleTree.Proofs.Assembly.Limit
import StyleTree.Proofs.Assembly.Lines
import StyleTree.Proofs.Assembly.Log
import StyleTree.Proofs.Assembly.Outcome
import StyleTree.Proofs.Block.Depth
import StyleTree.Proofs.Block.Json
import StyleTree.Proofs.Block.Mirrors
import StyleTree.Proofs.Block.Paths
import StyleTree.Proofs.Block.Places
import StyleTree.Proofs.Block.Properties
import StyleTree.Proofs.Block.Reparse
import StyleTree.Proofs.Block.RoundTrip
import StyleTree.Proofs.Block.Tidy
import StyleTree.Proofs.Block.Urls
import StyleTree.Proofs.Comment.Spans
import StyleTree.Proofs.Json.Derivations
import StyleTree.Proofs.Json.Grammar
import StyleTree.Proofs.Json.Numbers
import StyleTree.Proofs.Listing.Fold
import StyleTree.Proofs.Listing.Parts
import StyleTree.Proofs.Listing.RoundTrip
import StyleTree.Proofs.Selector.Pieces
import StyleTree.Proofs.Settings.Json
import StyleTree.Proofs.Sheet.Agreement
import StyleTree.Proofs.Sheet.Concatenation
import StyleTree.Proofs.Sheet.Json
import StyleTree.Proofs.Sheet.Renamings
import StyleTree.Proofs.Sheet.Stripping
import StyleTree.Proofs.Text.Quoted
import StyleTree.Proofs.Text.Trim
import StyleTree.Proofs.Token.Balanced
import StyleTree.Proofs.Token.Bytes
import StyleTree.Proofs.Token.Comments
import StyleTree.Proofs.Token.Fragment
import StyleTree.Proofs.Token.Reads
import StyleTree.Proofs.Token.Separators
import StyleTree.Proofs.Token.Shape
import StyleTree.Proofs.Token.Stream
import StyleTree.Proofs.Token.Walk
import StyleTree.Settings.Json
import StyleTree.Sheet.Parser
import StyleTree.Table
import StyleTree.Text
import StyleTree.Text.Quoted
import StyleTree.Token.Lexer
import StyleTree.Token.Run
