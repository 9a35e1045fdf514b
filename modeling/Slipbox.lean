import Slipbox.Answer
import Slipbox.Command.Run
import Slipbox.Config
import Slipbox.Document.Basic
import Slipbox.Graph.Names
import Slipbox.Index.Archive
import Slipbox.Main
import Slipbox.Proofs.Graph.Resolution
import Slipbox.Proofs.Graph.Traversal
import Slipbox.Proofs.Index.Catalog
import Slipbox.Proofs.Query.Parsing
import Slipbox.Proofs.Query.RoundTrip
import Slipbox.Proofs.Query.Selection
import Slipbox.Proofs.Vault.History
import Slipbox.Query.Run
import Slipbox.Vault.Basic
import Slipbox.Proofs.Index.Contents
import Slipbox.Proofs.Vault.Rebuild
import Slipbox.Proofs.Graph.Links
import Slipbox.Proofs.Query.Placeholders
import Slipbox.Proofs.Graph.Visible
import Slipbox.Proofs.Sql.Order
import Slipbox.Proofs.Query.Contents
import Slipbox.Proofs.Reads
import Slipbox.Proofs.Graph.Statistics
import Slipbox.Proofs.Query.Failing
import Slipbox.Proofs.Query.FaultPosition
import Slipbox.Proofs.Text.Lowercase
import Slipbox.Proofs.Query.TagSearch
import Slipbox.Proofs.Text.Bytes
import Slipbox.Proofs.Decimal.Monotone
import Slipbox.Proofs.Query.LimitLiteral
import Slipbox.Proofs.Query.Ranking
import Slipbox.Proofs.Query.ReportRows
import Slipbox.Proofs.Graph.Relatedness
import Slipbox.Proofs.Query.Offence
import Slipbox.Proofs.Graph.TrailOrder
import Slipbox.Proofs.Graph.Extension
import Slipbox.Proofs.Graph.Spelling
import Slipbox.Proofs.Graph.Broken
import Slipbox.Proofs.Graph.Rooted
import Slipbox.Proofs.Graph.Reversal
import Slipbox.Proofs.Graph.Destination
import Slipbox.Proofs.Query.Substring
import Slipbox.Proofs.Decimal.Magnitude
import Slipbox.Proofs.Decimal.Rounded
import Slipbox.Proofs.Decimal.ColumnText
import Slipbox.Proofs.Query.NumberText
import Slipbox.Proofs.Query.TokenSpelling
import Slipbox.Proofs.Query.Pieces
import Slipbox.Proofs.Query.SourceStart
import Slipbox.Proofs.Query.Columns
import Slipbox.Proofs.Document.Links
import Slipbox.Proofs.Document.Restated
import Slipbox.Proofs.Document.Fences
import Slipbox.Proofs.Query.FaultWindow
import Slipbox.Proofs.Time.Written
