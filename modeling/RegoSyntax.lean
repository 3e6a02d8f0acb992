import RegoSyntax.Token
import RegoSyntax.Keyword
import RegoSyntax.Lexeme
import RegoSyntax.Scanner
import RegoSyntax.Location
import RegoSyntax.Tree
import RegoSyntax.Tree.Equality
import RegoSyntax.Tree.Render
import RegoSyntax.Tree.Ground
import RegoSyntax.Rule
import RegoSyntax.Number.Binary64
import RegoSyntax.Number.Shortest
import RegoSyntax.Json
import RegoSyntax.Json.Reader
import RegoSyntax.Depth
import RegoSyntax.Diagnostic
import RegoSyntax.Statement
import RegoSyntax.Json.Capabilities
import RegoSyntax.Parse.Basic
import RegoSyntax.Number.Numeral
import RegoSyntax.Parse.Collection
import RegoSyntax.Parse.Operator
import RegoSyntax.Parse.Path
import RegoSyntax.Parse.Primary
import RegoSyntax.Parse.Literal
import RegoSyntax.Parse.Definition
import RegoSyntax.Parse.Clause
import RegoSyntax.Parse.Grammar
import RegoSyntax.Negotiation
import RegoSyntax.Parser
import RegoSyntax.Fragment
import RegoSyntax.Command
import RegoSyntax.Main
import RegoSyntax.Yaml.Cursor
import RegoSyntax.Yaml.Scalar
import RegoSyntax.Yaml.Token
import RegoSyntax.Yaml.Event
import RegoSyntax.Yaml.Node
import RegoSyntax.Yaml.Resolve
import RegoSyntax.Yaml.Decode
import RegoSyntax.Metadata.Record
import RegoSyntax.Metadata.Block
import RegoSyntax.Proofs.Settings
import RegoSyntax.Proofs.Ceiling
import RegoSyntax.Proofs.WellFormed
import RegoSyntax.Proofs.RuleShapes
import RegoSyntax.Proofs.RuleNames
import RegoSyntax.Proofs.Places
import RegoSyntax.Proofs.Wildcards
import RegoSyntax.Proofs.Printing.Roundtrip
import RegoSyntax.Proofs.Infix.Precedence
import RegoSyntax.Proofs.Blocks
import RegoSyntax.Proofs.Tiling
import RegoSyntax.Proofs.Rows
import RegoSyntax.Proofs.History
import RegoSyntax.Proofs.Termination
import RegoSyntax.Proofs.Openings
import RegoSyntax.Proofs.HeadWildcards
import RegoSyntax.Proofs.Renaming.Suggestions
import RegoSyntax.Proofs.Scalars.Strings
import RegoSyntax.Proofs.Scalars.Numbers
import RegoSyntax.Proofs.Granting.Extension
import RegoSyntax.Proofs.Dialects.Sources
import RegoSyntax.Proofs.Negotiation
import RegoSyntax.Proofs.Stamps
import RegoSyntax.Proofs.Preorder
import RegoSyntax.Proofs.Trail
import RegoSyntax.Proofs.Visits
import RegoSyntax.Proofs.Separators
import RegoSyntax.Proofs.Encoding
import RegoSyntax.Proofs.Groundness
import RegoSyntax.Proofs.Snippets
import RegoSyntax.Proofs.Carets
import RegoSyntax.Proofs.Conversion
import RegoSyntax.Proofs.Memory
import RegoSyntax.Proofs.Arguments
import RegoSyntax.Proofs.Authors
import RegoSyntax.Proofs.Nesting.Productions
