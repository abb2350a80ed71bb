import SemanticLayer.Document.Encode
import SemanticLayer.Main
import SemanticLayer.Proofs.Dialect.Quoting
import SemanticLayer.Proofs.Elaborate.Independence
import SemanticLayer.Proofs.Elaborate.Namespaces
import SemanticLayer.Proofs.Elaborate.Reporting
import SemanticLayer.Proofs.Elaborate.TimeLiteral
import SemanticLayer.Proofs.Elaborate.ViewRefinement
import SemanticLayer.Proofs.Elaborate.WellFormed
import SemanticLayer.Proofs.Plan.Aggregation
import SemanticLayer.Proofs.Plan.Agreement
import SemanticLayer.Proofs.Plan.FanOut
import SemanticLayer.Proofs.Plan.Filtered
import SemanticLayer.Proofs.Plan.Grouped
import SemanticLayer.Proofs.Plan.Keys
import SemanticLayer.Proofs.Plan.Numbers
import SemanticLayer.Proofs.Plan.Pipeline
import SemanticLayer.Proofs.Plan.Rendered
import SemanticLayer.Proofs.Plan.Result
import SemanticLayer.Proofs.Plan.Sampled
import SemanticLayer.Proofs.Plan.Transparent
import SemanticLayer.Proofs.Session.Confluence
import SemanticLayer.Proofs.Session.Footprint
import SemanticLayer.Proofs.Session.Rounds
