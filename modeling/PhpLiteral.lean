import PhpLiteral.Command
import PhpLiteral.Main
import PhpLiteral.Proofs.Arity
import PhpLiteral.Proofs.Command.Documents
import PhpLiteral.Proofs.Command.Settings
import PhpLiteral.Proofs.Copy
import PhpLiteral.Proofs.Data.Arguments
import PhpLiteral.Proofs.Data.Properties
import PhpLiteral.Proofs.Data.RoundTrip
import PhpLiteral.Proofs.Depth
import PhpLiteral.Proofs.Escaped
import PhpLiteral.Proofs.FloatLiteral
import PhpLiteral.Proofs.Layout.ClassName
import PhpLiteral.Proofs.Layout.EarlierLines
import PhpLiteral.Proofs.Layout.Entries
import PhpLiteral.Proofs.Layout.Exact
import PhpLiteral.Proofs.Layout.Indentation
import PhpLiteral.Proofs.Layout.StartColumn
import PhpLiteral.Proofs.Layout.Tokens
import PhpLiteral.Proofs.Literal
import PhpLiteral.Proofs.Member
import PhpLiteral.Proofs.Store.Handles
import PhpLiteral.Proofs.Toml.Dates
import PhpLiteral.Proofs.Text.Reindented
import PhpLiteral.Text.Quoted
import PhpLiteral.Proofs.FactoryName
import PhpLiteral.Proofs.Indent
import PhpLiteral.Proofs.Toml.KeyLines
import PhpLiteral.Proofs.Toml.Assigned
import PhpLiteral.Proofs.Toml.ValuePlaces
import PhpLiteral.Proofs.Config.Rejected
import PhpLiteral.Proofs.Config.ValueSpan
